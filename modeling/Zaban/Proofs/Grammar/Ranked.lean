import Mathlib.Data.List.Induction
import Mathlib.Logic.ExistsUnique
import Zaban.Syntax.Grammar

/-!
# The one right tree of a chain

A chain is operands with operators between them. A **chain tree** groups it: its
operands and operators, read from left to right, are those of the chain. The
tree is **ranked** if no operator takes an operand that belongs to another one:
an operator below another on its left binds at least as tight, and one on its
right binds tighter. How tight each binds is in the table of
`ChainOp.ofSymbol?_eq_some_iff`.

Every chain has exactly one ranked tree (`existsUnique_ranked`). It is built
from the left: a new operator goes down the right side of the tree, past the
operators that bind weaker, and takes what it finds there as its left operand
(`push`). A ranked tree is rebuilt from its own chain in this way
(`Ranked.eq_ofChain`), since all that stands to the right of its top operator
binds tighter and goes there again.
-/

namespace Zaban

/-- A chain in groups. -/
inductive ChainTree where
  | operand (n : Node)
  | join (op : ChainOp) (left right : ChainTree)

namespace ChainTree

-- ----------------------------------------------------------------------------
-- Trees and chains
-- ----------------------------------------------------------------------------

/-- The expression that the groups make up. -/
def node : ChainTree → Node
  | operand n => n
  | join op left right => op.join left.node right.node

/-- The first operand. -/
def first : ChainTree → Node
  | operand n => n
  | join _ left _ => left.first

/-- The operators in their order, each with the operand behind it. -/
def rest : ChainTree → List (ChainOp × Node)
  | operand _ => []
  | join op left right => left.rest ++ (op, right.first) :: right.rest

/-- The operator at the top, if there is one. -/
def top? : ChainTree → Option ChainOp
  | operand _ => none
  | join op _ _ => some op

/-- An operator below another binds at least as tight on the left of it, and tighter on the
right. -/
def Ranked : ChainTree → Prop
  | operand _ => True
  | join op left right =>
    left.Ranked ∧ right.Ranked ∧ (∀ o ∈ left.top?, op.precedence ≤ o.precedence) ∧
      ∀ o ∈ right.top?, op.precedence < o.precedence

/-- Adds an operator and an operand on the right. -/
def push : ChainTree → ChainOp → Node → ChainTree
  | operand m, op, n => join op (operand m) (operand n)
  | join o left right, op, n =>
    if o.precedence < op.precedence then join o left (right.push op n)
    else join op (join o left right) (operand n)

/-- The groups of a chain. -/
def ofChain (first : Node) (xs : List (ChainOp × Node)) : ChainTree :=
  xs.foldl (fun t x => t.push x.1 x.2) (operand first)

variable {t l r : ChainTree} {o op : ChainOp}

-- ----------------------------------------------------------------------------
-- Building a ranked tree
-- ----------------------------------------------------------------------------

theorem first_push (t : ChainTree) (op : ChainOp) (n : Node) : (t.push op n).first = t.first := by
  cases t with
  | operand m => rfl
  | join o l r =>
    rw [push]
    split
    · rfl
    · rfl

theorem rest_push (t : ChainTree) (op : ChainOp) (n : Node) :
    (t.push op n).rest = t.rest ++ [(op, n)] := by
  induction t with
  | operand m => rfl
  | join o l r _ ih =>
    rw [push]
    split
    · rw [rest, rest, first_push, ih, List.append_assoc, List.cons_append]
    · rfl

/-- The operator at the top stays there, or the new one takes its place. -/
theorem top?_push (t : ChainTree) (op : ChainOp) (n : Node) :
    (t.push op n).top? = some op ∨ (t.push op n).top? = t.top? := by
  cases t with
  | operand m => exact Or.inl rfl
  | join o l r =>
    rw [push]
    split
    · exact Or.inr rfl
    · exact Or.inl rfl

theorem Ranked.push (h : t.Ranked) (op : ChainOp) (n : Node) : (t.push op n).Ranked := by
  induction t with
  | operand m => exact ⟨trivial, trivial, by rintro _ ⟨⟩, by rintro _ ⟨⟩⟩
  | join o l r _ ih =>
    obtain ⟨hLeft, hRight, hOver, hUnder⟩ := h
    rw [ChainTree.push]
    split
    · rename_i hTighter
      refine ⟨hLeft, ih hRight, hOver, fun q hq => ?_⟩
      rcases r.top?_push op n with hTop | hTop
      · rw [hTop] at hq
        exact Option.some.inj hq ▸ hTighter
      · exact hUnder q (hTop ▸ hq)
    · rename_i hWeaker
      refine ⟨⟨hLeft, hRight, hOver, hUnder⟩, trivial, ?_, by rintro _ ⟨⟩⟩
      rintro _ ⟨⟩
      exact Nat.le_of_not_lt hWeaker

/-- The groups of a chain are ranked, and their chain is the chain. -/
theorem ofChain_spec (n : Node) (xs : List (ChainOp × Node)) :
    (ofChain n xs).first = n ∧ (ofChain n xs).rest = xs ∧ (ofChain n xs).Ranked := by
  induction xs using List.reverseRecOn with
  | nil => exact ⟨rfl, rfl, trivial⟩
  | append_singleton xs x ih =>
    obtain ⟨hFirst, hRest, hRanked⟩ := ih
    have hPush : ofChain n (xs ++ [x]) = (ofChain n xs).push x.1 x.2 := by
      rw [ofChain, List.foldl_append]
      rfl
    rw [hPush, first_push, rest_push, hRest]
    exact ⟨hFirst, rfl, hRanked.push x.1 x.2⟩

-- ----------------------------------------------------------------------------
-- Rebuilding a ranked tree
-- ----------------------------------------------------------------------------

theorem exists_top_of_mem_rest {x : ChainOp × Node} (hx : x ∈ t.rest) : ∃ o, t.top? = some o := by
  cases t with
  | operand n => cases hx
  | join op l r => exact ⟨op, rfl⟩

/-- No operator of a ranked tree binds weaker than the one at its top. -/
theorem Ranked.le_of_mem_rest (h : t.Ranked) (hTop : t.top? = some o) :
    ∀ x ∈ t.rest, o.precedence ≤ x.1.precedence := by
  induction t generalizing o with
  | operand n => cases hTop
  | join op l r ihLeft ihRight =>
    obtain ⟨hLeft, hRight, hOver, hUnder⟩ := h
    obtain rfl : op = o := Option.some.inj hTop
    intro x hx
    rcases List.mem_append.mp hx with hx | hx
    · obtain ⟨q, hq⟩ := exists_top_of_mem_rest hx
      exact Nat.le_trans (hOver q hq) (ihLeft hLeft hq x hx)
    · rcases List.mem_cons.mp hx with rfl | hx
      · exact Nat.le_refl _
      · obtain ⟨q, hq⟩ := exists_top_of_mem_rest hx
        exact Nat.le_of_lt (Nat.lt_of_lt_of_le (hUnder q hq) (ihRight hRight hq x hx))

/-- What binds tighter than the operator at the top goes to the right of it. -/
theorem foldl_push_join {xs : List (ChainOp × Node)}
    (h : ∀ x ∈ xs, op.precedence < x.1.precedence) (l r : ChainTree) :
    xs.foldl (fun t x => t.push x.1 x.2) (join op l r) =
      join op l (xs.foldl (fun t x => t.push x.1 x.2) r) := by
  induction xs generalizing r with
  | nil => rfl
  | cons x xs ih =>
    have hTighter := h x List.mem_cons_self
    rw [List.foldl_cons, List.foldl_cons, push, if_pos hTighter]
    exact ih (fun y hy => h y (List.mem_cons_of_mem x hy)) _

/-- An operator that does not bind tighter takes the whole tree. -/
theorem push_of_le (h : ∀ q ∈ l.top?, op.precedence ≤ q.precedence) (n : Node) :
    l.push op n = join op l (operand n) := by
  cases l with
  | operand m => rfl
  | join q a b => rw [push, if_neg (Nat.not_lt.mpr (h q rfl))]

/-- **A ranked tree is the one that is built from its chain.** -/
theorem Ranked.eq_ofChain (h : t.Ranked) : ofChain t.first t.rest = t := by
  induction t with
  | operand n => rfl
  | join op l r ihLeft ihRight =>
    obtain ⟨hLeft, hRight, hOver, hUnder⟩ := h
    have hTighter : ∀ x ∈ r.rest, op.precedence < x.1.precedence := by
      intro x hx
      obtain ⟨q, hq⟩ := exists_top_of_mem_rest hx
      exact Nat.lt_of_lt_of_le (hUnder q hq) (hRight.le_of_mem_rest hq x hx)
    have hSplit : ofChain (join op l r).first (join op l r).rest =
        r.rest.foldl (fun t x => t.push x.1 x.2) ((ofChain l.first l.rest).push op r.first) := by
      rw [ofChain, rest, List.foldl_append]
      rfl
    rw [hSplit, ihLeft hLeft, push_of_le hOver, foldl_push_join hTighter]
    exact congrArg (join op l) (ihRight hRight)

/-- **Every chain has exactly one ranked tree.** -/
theorem existsUnique_ranked (n : Node) (xs : List (ChainOp × Node)) :
    ∃! t : ChainTree, t.first = n ∧ t.rest = xs ∧ t.Ranked := by
  refine ⟨ofChain n xs, ofChain_spec n xs, ?_⟩
  rintro t ⟨rfl, rfl, hRanked⟩
  exact hRanked.eq_ofChain.symm

end ChainTree

end Zaban
