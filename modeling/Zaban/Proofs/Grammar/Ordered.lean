import Zaban.Proofs.Grammar.Complete
import Zaban.Proofs.Grammar.Ranked

/-!
# The grammar without ambiguity

The grammar of `Zaban.Proofs.Grammar.Derivation` says which token lists are
phrases, and leaves open how a chain is grouped and where a branch or a body
ends. The **ordered** grammar settles both:

* the groups of a chain are its ranked tree;
* only the last operand of a chain may be a function or a conditional, so that
  every operator and every argument list behind one belongs to its last part;
* a first branch that is followed by `nate` leaves no conditional open, so that
  `nate` belongs to the nearest one.

The last two are about what could still go on behind a phrase, its **edge**. A
phrase must stand where none of that comes next (`Edge.Ends`).

Every phrase that a reader gives is one of the ordered grammar
(`Ordered.sound_readers`). For a chain this is the invariant of the loop: what
was read so far is a ranked tree above the threshold, and the next operator
binds no tighter than the one at its top (`Grouped`).
-/

namespace Zaban

namespace Ordered

open Grammar

-- ----------------------------------------------------------------------------
-- Edges
-- ----------------------------------------------------------------------------

/-- What could still go on behind a phrase. -/
inductive Edge where
  /-- An argument list. -/
  | tight
  /-- An argument list or an operator. -/
  | loose
  /-- An argument list, an operator, or `nate`. -/
  | dangling
deriving DecidableEq

/-- The edge of a chain that ends with an operand of the given edge. -/
def Edge.opened : Edge → Edge
  | tight => loose
  | e => e

/-- Nothing comes next that could go on behind the phrase. -/
structure Edge.Ends (e : Edge) (ts : List Token) : Prop where
  noArguments : nextIs '(' ts = false
  noOperator  : e ≠ .tight → Stops 0 ts
  noElse      : e = .dangling → ∀ t us, ts = t :: us → t.kind ≠ .keyword .nate

theorem Edge.opened_ne_tight (e : Edge) : e.opened ≠ .tight := by
  cases e <;> decide

theorem Edge.Ends.opened {e : Edge} {ts : List Token} (h : e.Ends ts) (hStops : Stops 0 ts) :
    e.opened.Ends ts := by
  refine ⟨h.noArguments, fun _ => hStops, fun hDangling => h.noElse ?_⟩
  cases e with
  | tight | loose => cases hDangling
  | dangling => rfl

theorem Edge.Ends.of_opened {e : Edge} {ts : List Token} (h : e.opened.Ends ts) : e.Ends ts := by
  refine ⟨h.noArguments, fun _ => h.noOperator e.opened_ne_tight, ?_⟩
  rintro rfl
  exact h.noElse rfl

/-- Where an expression halts, every phrase ends. -/
theorem ends_of_halts {ts : List Token} (h : Halts ts) (e : Edge) : e.Ends ts :=
  ⟨h.stops.noArguments, fun _ => h.stops, fun _ => h.noElse⟩

-- ----------------------------------------------------------------------------
-- The grammar
-- ----------------------------------------------------------------------------

/-- The tree of an expression, and what could go on behind it. -/
structure Reading where
  node : Node
  edge : Edge

/-- Operands with operators between them, of which only the last may have any edge: the first
operand, the operators with the operands behind them, and the edge of the last. -/
inductive Chain (operand : List Token → Node → Edge → Prop) :
    List Token → Node → List (ChainOp × Node) → Edge → Prop where
  | last {ts : List Token} {n : Node} {e : Edge} (hOperand : operand ts n e) :
      Chain operand ts n [] e
  | link {ts us : List Token} {t : Token} {op : ChainOp} {n m : Node} {xs : List (ChainOp × Node)}
      {e : Edge} (hOperand : operand ts n .tight) (hOp : t.chainOp? = some op)
      (hRest : Chain operand us m xs e) :
      Chain operand (ts ++ t :: us) n ((op, m) :: xs) e

mutual

/-- The tokens are a chain, and the tree is its ranked one. -/
inductive Expression : List Token → Reading → Prop where
  | grouped {ts : List Token} {tree : ChainTree} {e : Edge}
      (hChain : Chain Operand ts tree.first tree.rest e) (hRanked : tree.Ranked) :
      Expression ts ⟨tree.node, e.opened⟩

/-- The tokens are an operand of a chain. -/
inductive Operand : List Token → Node → Edge → Prop where
  | tight {ts us : List Token} {m n : Node} (hClosed : Closed ts m) (hApplied : Applied us m n) :
      Operand (ts ++ us) n .tight
  | function {k o c : Token} {ts us : List Token} {params : List String} {body : Reading}
      (hWord : k.OpensFunction) (hOpen : o.kind = .punctuation '(')
      (hParams : Listed Name ',' ts params) (hClose : c.kind = .punctuation ')')
      (hBody : Expression us body) :
      Operand (k :: o :: (ts ++ c :: us)) (.lambda params body.node) body.edge
  | conditional {k : Token} {ts ws us : List Token} {test yes : Reading}
      (hWord : k.kind = .keyword .yeli) (hTest : Expression ts test) (hBridge : Bridge ws us)
      (hYes : Expression us yes) :
      Operand (k :: (ts ++ (ws ++ us))) (.condition test.node yes.node none) .dangling
  | otherwise {k t : Token} {ts ws us vs : List Token} {test yes no : Reading}
      (hWord : k.kind = .keyword .yeli) (hTest : Expression ts test) (hBridge : Bridge ws us)
      (hYes : Expression us yes) (hPaired : yes.edge ≠ .dangling)
      (hNate : t.kind = .keyword .nate) (hNo : Expression vs no) :
      Operand (k :: (ts ++ (ws ++ (us ++ t :: vs))))
        (.condition test.node yes.node (some no.node)) no.edge

/-- The tokens are argument lists, and applying the first tree to them gives the second. -/
inductive Applied : List Token → Node → Node → Prop where
  | none {n : Node} : Applied [] n n
  | call {o c : Token} {us vs : List Token} {callee n : Node} {args : List Reading}
      (hOpen : o.kind = .punctuation '(') (hArgs : Listed Expression ',' us args)
      (hClose : c.kind = .punctuation ')')
      (hRest : Applied vs (.call callee (args.map Reading.node)) n) :
      Applied (o :: (us ++ c :: vs)) callee n

/-- The tokens are an operand that ends with a token of its own. -/
inductive Closed : List Token → Node → Prop where
  | leaf {t : Token} {n : Node} (hLeaf : t.leaf? = some n) : Closed [t] n
  | group {ts : List Token} {o c : Token} {inner : Reading}
      (hOpen : o.kind = .punctuation '(') (hInner : Expression ts inner)
      (hClose : c.kind = .punctuation ')') :
      Closed (o :: (ts ++ [c])) inner.node
  | block {ts : List Token} {o c : Token} {body : List Reading}
      (hOpen : o.kind = .punctuation '{') (hBody : Listed Expression ';' ts body)
      (hClose : c.kind = .punctuation '}') :
      Closed (o :: (ts ++ [c])) (blockNode (body.map Reading.node))

end

/-- The tokens are a whole program. -/
inductive Program : List Token → Node → Prop where
  | body {ts : List Token} {xs : List Reading} (hBody : Listed Expression ';' ts xs) :
      Program ts (.program (xs.map Reading.node))

/-- A chain whose last operand is tight goes on with an operator and a chain. -/
theorem Chain.append {operand : List Token → Node → Edge → Prop} {ts us : List Token} {n m : Node}
    {xs ys : List (ChainOp × Node)} {e d : Edge} (h : Chain operand ts n xs d) (hTight : d = .tight)
    {t : Token} {op : ChainOp} (hOp : t.chainOp? = some op) (h' : Chain operand us m ys e) :
    Chain operand (ts ++ t :: us) n (xs ++ (op, m) :: ys) e := by
  induction h with
  | last hOperand =>
    subst hTight
    exact .link hOperand hOp h'
  | link hOperand hOp' _ ih =>
    rw [List.append_assoc]
    exact .link hOperand hOp' (ih hTight)

-- ----------------------------------------------------------------------------
-- First tokens and edges
-- ----------------------------------------------------------------------------

theorem Operand.opens {ts : List Token} {n : Node} {e : Edge} (h : Operand ts n e) :
    ∃ t us, ts = t :: us ∧ t.Opens := by
  cases h with
  | tight hClosed _ =>
    cases hClosed with
    | leaf hLeaf => exact ⟨_, _, rfl, .leaf hLeaf⟩
    | group hOpen => exact ⟨_, _, rfl, .group hOpen⟩
    | block hOpen => exact ⟨_, _, rfl, .block hOpen⟩
  | function hWord => exact ⟨_, _, rfl, .function hWord⟩
  | conditional hWord => exact ⟨_, _, rfl, .conditional hWord⟩
  | otherwise hWord => exact ⟨_, _, rfl, .conditional hWord⟩

theorem Chain.opens {ts : List Token} {n : Node} {xs : List (ChainOp × Node)} {e : Edge}
    (h : Chain Operand ts n xs e) : ∃ t us, ts = t :: us ∧ t.Opens := by
  cases h with
  | last hOperand => exact hOperand.opens
  | link hOperand =>
    obtain ⟨t, us, rfl, hOpens⟩ := hOperand.opens
    exact ⟨t, _, rfl, hOpens⟩

theorem Expression.opens {ts : List Token} {x : Reading} (h : Expression ts x) :
    ∃ t us, ts = t :: us ∧ t.Opens := by
  cases h with
  | grouped hChain => exact hChain.opens

theorem Expression.edge_ne_tight {ts : List Token} {x : Reading} (h : Expression ts x) :
    x.edge ≠ .tight := by
  cases h with
  | @grouped _ _ e => exact e.opened_ne_tight

/-- An operand ends with a token of its own, or could go on with more than an argument list. -/
theorem Operand.tight_or_loose {ts : List Token} {n : Node} {e : Edge} (h : Operand ts n e) :
    (∃ us vs m, ts = us ++ vs ∧ Closed us m ∧ Applied vs m n) ∨ e ≠ .tight := by
  cases h with
  | tight hClosed hApplied => exact Or.inl ⟨_, _, _, rfl, hClosed, hApplied⟩
  | function _ _ _ _ hBody => exact Or.inr hBody.edge_ne_tight
  | conditional => exact Or.inr (by decide)
  | otherwise _ _ _ _ _ _ hNo => exact Or.inr hNo.edge_ne_tight

/-- A closing mark or a separator never stands first in an expression. -/
theorem Expression.nextIs_eq_false {ts : List Token} {x : Reading} (h : Expression ts x)
    {mark : Char} (hParen : mark ≠ '(') (hBrace : mark ≠ '{') (rest : List Token) :
    nextIs mark (ts ++ rest) = false := by
  obtain ⟨t, us, rfl, hOpens⟩ := h.opens
  rw [List.cons_append, nextIs_cons, Bool.eq_false_iff]
  intro hMark
  rcases hOpens.punctuation (Token.isMark_iff.mp hMark) with hEq | hEq
  · exact hParen hEq
  · exact hBrace hEq

-- ----------------------------------------------------------------------------
-- What the readers give
-- ----------------------------------------------------------------------------

/-- What a reader of chains has read: a ranked tree above the threshold, in front of `rest`. -/
structure Grouped (threshold : Nat) (ts : List Token) (tree : ChainTree) (e : Edge)
    (rest : List Token) : Prop where
  chain  : Chain Operand ts tree.first tree.rest e
  ranked : tree.Ranked
  above  : ∀ o ∈ tree.top?, threshold < o.precedence
  ends   : e.Ends rest

theorem grouped_operand {threshold : Nat} {ts rest : List Token} {n : Node} {e : Edge}
    (hOperand : Operand ts n e) (hEnds : e.Ends rest) :
    Grouped threshold ts (.operand n) e rest :=
  ⟨.last hOperand, trivial, by rintro _ ⟨⟩, hEnds⟩

/-- What every reader gives, with one amount of fuel. -/
structure Sound (fin : Ending) (fuel : Nat) : Prop where
  expression : ∀ {ts n rest}, readExpression fin fuel ts = .ok (n, rest) →
    ∃ taken e, ts = taken ++ rest ∧ Expression taken ⟨n, e⟩ ∧ e.Ends rest ∧ Stops 0 rest
  chain : ∀ {threshold before l e ts n rest}, Grouped threshold before l e ts →
    (∀ o ∈ l.top?, Stops o.precedence ts) →
    readChain fin fuel threshold l.node ts = .ok (n, rest) →
    ∃ taken tree e', ts = taken ++ rest ∧ n = tree.node ∧
      Grouped threshold (before ++ taken) tree e' rest ∧ Stops threshold rest
  arguments : ∀ {callee ts n rest}, readArguments fin fuel callee ts = .ok (n, rest) →
    ∃ taken, ts = taken ++ rest ∧ Applied taken callee n ∧ nextIs '(' rest = false
  operand : ∀ {ts n rest}, readOperand fin fuel ts = .ok (n, rest) →
    ∃ taken e, ts = taken ++ rest ∧ Operand taken n e ∧ e.Ends rest
  atom : ∀ {t ts n rest}, readAtom fin fuel t ts = .ok (n, rest) →
    ∃ taken, ts = taken ++ rest ∧
      (Closed (t :: taken) n ∨ ∃ e, Operand (t :: taken) n e ∧ e.Ends rest)
  conditional : ∀ {k ts n rest}, k.kind = .keyword .yeli →
    readConditional fin fuel ts = .ok (n, rest) →
    ∃ taken e, ts = taken ++ rest ∧ Operand (k :: taken) n e ∧ e.Ends rest
  function : ∀ {k ts n rest}, k.OpensFunction → readFunction fin fuel ts = .ok (n, rest) →
    ∃ taken e, ts = taken ++ rest ∧ Operand (k :: taken) n e ∧ e.Ends rest

/-- Where no argument list comes next, none is applied. -/
theorem Applied.eq_of_nextIs {ts rest : List Token} {n m : Node} (h : Applied ts n m)
    (hNext : nextIs '(' (ts ++ rest) = false) : ts = [] ∧ m = n := by
  cases h with
  | none => exact ⟨rfl, rfl⟩
  | call hOpen =>
    rw [List.cons_append, nextIs_cons, Token.isMark_iff.mpr hOpen] at hNext
    cases hNext

section Step

variable {fin : Ending} {fuel : Nat}

theorem Sound.expression_succ (h : Sound fin fuel) {ts : List Token} {n : Node}
    {rest : List Token} (hRead : readExpression fin (fuel + 1) ts = .ok (n, rest)) :
    ∃ taken e, ts = taken ++ rest ∧ Expression taken ⟨n, e⟩ ∧ e.Ends rest ∧ Stops 0 rest := by
  rw [readExpression] at hRead
  simp only [bind_eq_ok, Prod.exists] at hRead
  obtain ⟨first, us, hFirst, chain, vs, hChain, hArgs⟩ := hRead
  obtain ⟨head, e, rfl, hOperand, hEnds⟩ := h.operand hFirst
  obtain ⟨tail, tree, e', rfl, rfl, hGrouped, hStops⟩ :=
    h.chain (grouped_operand hOperand hEnds) (by rintro _ ⟨⟩) hChain
  obtain ⟨more, rfl, hApplied, -⟩ := h.arguments hArgs
  obtain ⟨rfl, rfl⟩ := hApplied.eq_of_nextIs hStops.noArguments
  refine ⟨head ++ tail, e'.opened, by simp, .grouped hGrouped.chain hGrouped.ranked, ?_, hStops⟩
  exact hGrouped.ends.opened hStops

/-- **One operator and its right operand are joined to a ranked tree.** The right operand binds
tighter than the operator, and the tree on the left at least as tight. -/
theorem Grouped.join {threshold : Nat} {before us vs : List Token} {l r : ChainTree} {e e' : Edge}
    {t : Token} {op : ChainOp} (hLeft : Grouped threshold before l e (t :: us))
    (hTop : ∀ o ∈ l.top?, Stops o.precedence (t :: us)) (hOp : t.chainOp? = some op)
    (hAbove : threshold < op.precedence) {taken : List Token}
    (hRight : Grouped op.precedence taken r e' vs) :
    Grouped threshold (before ++ t :: taken) (.join op l r) e' vs := by
  have hTight : e = .tight := by
    by_contra hLoose
    have hNone := (hLeft.ends.noOperator hLoose).chainOp?_eq_none
    rw [hOp] at hNone
    cases hNone
  refine ⟨hLeft.chain.append hTight hOp hRight.chain, ⟨hLeft.ranked, hRight.ranked, ?_, ?_⟩, ?_,
    hRight.ends⟩
  · intro o ho
    exact (hTop o ho).noOperator t us op rfl hOp
  · exact hRight.above
  · rintro _ ⟨⟩
    exact hAbove

theorem Sound.chain_succ (h : Sound fin fuel) {threshold : Nat} {before : List Token}
    {l : ChainTree} {e : Edge} {ts : List Token} {n : Node} {rest : List Token}
    (hLeft : Grouped threshold before l e ts) (hTop : ∀ o ∈ l.top?, Stops o.precedence ts)
    (hRead : readChain fin (fuel + 1) threshold l.node ts = .ok (n, rest)) :
    ∃ taken tree e', ts = taken ++ rest ∧ n = tree.node ∧
      Grouped threshold (before ++ taken) tree e' rest ∧ Stops threshold rest := by
  -- where the chain stops, the tree is as it was
  have hStop : Stops threshold ts → l.node = n ∧ ts = rest →
      ∃ taken tree e', ts = taken ++ rest ∧ n = tree.node ∧
        Grouped threshold (before ++ taken) tree e' rest ∧ Stops threshold rest := by
    rintro hStops ⟨rfl, rfl⟩
    exact ⟨[], l, e, rfl, rfl, by rwa [List.append_nil], hStops⟩
  cases ts with
  | nil =>
    rw [readChain, close_eq_ok] at hRead
    exact hStop (stops_nil _) ⟨hRead.2.1, hRead.2.2.symm⟩
  | cons t us =>
    simp only [readChain] at hRead
    split at hRead
    · rename_i hNone
      refine hStop ⟨hLeft.ends.noArguments, ?_⟩ (Prod.mk.inj (Except.ok.inj hRead))
      rintro _ _ op ⟨⟩ hOp
      rw [hNone] at hOp
      cases hOp
    · rename_i op hOp
      split at hRead
      · rename_i hWeak
        refine hStop ⟨hLeft.ends.noArguments, ?_⟩ (Prod.mk.inj (Except.ok.inj hRead))
        rintro _ _ op' ⟨⟩ hOp'
        rw [hOp] at hOp'
        exact Option.some.inj hOp' ▸ hWeak
      · rename_i hAbove
        simp only [bind_eq_ok, Prod.exists] at hRead
        obtain ⟨next, vs, hOperandRead, right, ws, hRightRead, hMore⟩ := hRead
        obtain ⟨head, e₁, rfl, hOperand, hEnds⟩ := h.operand hOperandRead
        obtain ⟨inner, r, e₂, rfl, rfl, hRight, hStops⟩ :=
          h.chain (grouped_operand hOperand hEnds) (by rintro _ ⟨⟩) hRightRead
        have hJoined := hLeft.join hTop hOp (Nat.lt_of_not_le hAbove) hRight
        obtain ⟨outer, tree, e₃, rfl, rfl, hTree, hEnd⟩ :=
          h.chain hJoined (by rintro _ ⟨⟩; exact hStops) hMore
        refine ⟨t :: (head ++ inner) ++ outer, tree, e₃, by simp, rfl, ?_, hEnd⟩
        rwa [← List.append_assoc]

/-- The tokens are an expression of the ordered grammar, with any edge. -/
def Item (ts : List Token) (n : Node) : Prop :=
  ∃ e, Expression ts ⟨n, e⟩

theorem exists_readings {separator : Char} {ts : List Token} {ns : List Node}
    (h : Listed Item separator ts ns) :
    ∃ xs : List Reading, ns = xs.map Reading.node ∧ Listed Expression separator ts xs := by
  induction h with
  | nil => exact ⟨[], rfl, .nil⟩
  | last hItem =>
    obtain ⟨e, hItem⟩ := hItem
    exact ⟨[_], rfl, .last hItem⟩
  | cons hItem hMark _ ih =>
    obtain ⟨e, hItem⟩ := hItem
    obtain ⟨xs, rfl, hRest⟩ := ih
    exact ⟨_ :: xs, rfl, .cons hItem hMark hRest⟩

/-- A list of expressions that was read to its closing mark. -/
theorem Sound.items (h : Sound fin fuel) {separator stop : Char} {ts rest : List Token}
    {ns : List Node} (hRead : readItems fin (readExpression fin fuel) separator stop fuel true ts =
      .ok (ns, rest)) :
    ∃ taken c xs, ts = taken ++ c :: rest ∧ c.kind = .punctuation stop ∧
      ns = xs.map Reading.node ∧ Listed Expression separator taken xs := by
  have hItem : ∀ {ts n rest}, readExpression fin fuel ts = .ok (n, rest) →
      ∃ taken, ts = taken ++ rest ∧ Item taken n := by
    intro ts n rest hRead
    obtain ⟨taken, e, hEq, hExpression, -⟩ := h.expression hRead
    exact ⟨taken, hEq, e, hExpression⟩
  obtain ⟨taken, c, hEq, hClose, hItems⟩ := readItems_sound hItem hRead
  obtain ⟨xs, hNodes, hListed⟩ := exists_readings hItems
  exact ⟨taken, c, xs, hEq, hClose, hNodes, hListed⟩

theorem Sound.arguments_succ (h : Sound fin fuel) {callee : Node} {ts : List Token} {n : Node}
    {rest : List Token} (hRead : readArguments fin (fuel + 1) callee ts = .ok (n, rest)) :
    ∃ taken, ts = taken ++ rest ∧ Applied taken callee n ∧ nextIs '(' rest = false := by
  cases ts with
  | nil =>
    rw [readArguments, close_eq_ok] at hRead
    obtain ⟨-, rfl, rfl⟩ := hRead
    exact ⟨[], rfl, .none, rfl⟩
  | cons o us =>
    simp only [readArguments] at hRead
    split at hRead
    · rename_i hOpen
      simp only [bind_eq_ok, Prod.exists] at hRead
      obtain ⟨args, vs, hItems, hMore⟩ := hRead
      obtain ⟨inner, c, xs, rfl, hClose, rfl, hArgs⟩ := h.items hItems
      obtain ⟨more, rfl, hApplied, hNext⟩ := h.arguments hMore
      refine ⟨o :: (inner ++ c :: more), by simp, ?_, hNext⟩
      exact .call (Token.isMark_iff.mp hOpen) hArgs hClose hApplied
    · rename_i hOpen
      obtain ⟨rfl, rfl⟩ := Prod.mk.inj (Except.ok.inj hRead)
      exact ⟨[], rfl, .none, by simpa using hOpen⟩

theorem Sound.operand_succ (h : Sound fin fuel) {ts : List Token} {n : Node}
    {rest : List Token} (hRead : readOperand fin (fuel + 1) ts = .ok (n, rest)) :
    ∃ taken e, ts = taken ++ rest ∧ Operand taken n e ∧ e.Ends rest := by
  cases ts with
  | nil => cases hRead
  | cons t us =>
    simp only [readOperand, bind_eq_ok, Prod.exists] at hRead
    obtain ⟨atom, vs, hAtom, hArgs⟩ := hRead
    obtain ⟨inner, rfl, hKind⟩ := h.atom hAtom
    obtain ⟨more, rfl, hApplied, hNext⟩ := h.arguments hArgs
    rcases hKind with hClosed | ⟨e, hOperand, hEnds⟩
    · refine ⟨t :: inner ++ more, .tight, by simp, .tight hClosed hApplied, hNext, ?_, ?_⟩
      · exact fun hLoose => absurd rfl hLoose
      · rintro ⟨⟩
    · -- a function or a conditional leaves no argument list behind it
      obtain ⟨rfl, rfl⟩ := hApplied.eq_of_nextIs hEnds.noArguments
      exact ⟨t :: inner, e, rfl, hOperand, hEnds⟩

theorem Sound.atom_succ (h : Sound fin fuel) {t : Token} {ts : List Token} {n : Node}
    {rest : List Token} (hRead : readAtom fin (fuel + 1) t ts = .ok (n, rest)) :
    ∃ taken, ts = taken ++ rest ∧
      (Closed (t :: taken) n ∨ ∃ e, Operand (t :: taken) n e ∧ e.Ends rest) := by
  rw [readAtom] at hRead
  split at hRead
  · -- a group
    rename_i hOpen
    simp only [bind_eq_ok, pure_eq_ok, takeMark_eq_ok, Prod.exists] at hRead
    obtain ⟨inner, us, hInner, _, vs, ⟨c, rfl, hClose⟩, hEq⟩ := hRead
    obtain ⟨rfl, rfl⟩ := Prod.mk.inj hEq
    obtain ⟨taken, e, rfl, hExpression, -⟩ := h.expression hInner
    exact ⟨taken ++ [c], by simp, Or.inl (.group hOpen hExpression hClose)⟩
  · -- a block
    rename_i hOpen
    simp only [bind_eq_ok, pure_eq_ok, Prod.exists] at hRead
    obtain ⟨body, us, hItems, hEq⟩ := hRead
    obtain ⟨rfl, rfl⟩ := Prod.mk.inj hEq
    obtain ⟨taken, c, xs, rfl, hClose, rfl, hBody⟩ := h.items hItems
    exact ⟨taken ++ [c], by simp, Or.inl (.block hOpen hBody hClose)⟩
  · obtain ⟨taken, e, rfl, hOperand, hEnds⟩ := h.conditional ‹_› hRead
    exact ⟨taken, rfl, Or.inr ⟨e, hOperand, hEnds⟩⟩
  · obtain ⟨taken, e, rfl, hOperand, hEnds⟩ := h.function (Or.inl ‹_›) hRead
    exact ⟨taken, rfl, Or.inr ⟨e, hOperand, hEnds⟩⟩
  · obtain ⟨taken, e, rfl, hOperand, hEnds⟩ := h.function (Or.inr ‹_›) hRead
    exact ⟨taken, rfl, Or.inr ⟨e, hOperand, hEnds⟩⟩
  -- what is left are the leaves, and the tokens that no expression starts with
  all_goals first
    | cases hRead
      exact ⟨[], rfl, Or.inl (.leaf (by simp [Token.leaf?, *]))⟩
    | cases hRead

/-- The second branch is taken by the conditional that is nearest. -/
theorem Sound.conditional_succ (h : Sound fin fuel) {k : Token} {ts : List Token} {n : Node}
    {rest : List Token} (hWord : k.kind = .keyword .yeli)
    (hRead : readConditional fin (fuel + 1) ts = .ok (n, rest)) :
    ∃ taken e, ts = taken ++ rest ∧ Operand (k :: taken) n e ∧ e.Ends rest := by
  simp only [readConditional_succ, bind_eq_ok, Prod.exists] at hRead
  obtain ⟨test, us, hTestRead, _, vs, hBridgeRead, yes, xs, hYesRead, hNoRead⟩ := hRead
  obtain ⟨tested, e₁, rfl, hTest, -⟩ := h.expression hTestRead
  obtain ⟨ws, rfl, hBridge⟩ := readBridge_sound hBridgeRead
  obtain ⟨first, e₂, rfl, hYes, hEnds, hStops⟩ := h.expression hYesRead
  have hOpening : Bridge ws first := by
    obtain ⟨t, us, rfl, -⟩ := hYes.opens
    exact hBridge
  cases xs with
  | nil =>
    obtain ⟨-, rfl, rfl⟩ := close_eq_ok.mp hNoRead
    refine ⟨tested ++ (ws ++ first), .dangling, by simp, ?_, ends_of_halts halts_nil _⟩
    exact .conditional hWord hTest hOpening hYes
  | cons t us =>
    rw [readOtherwise] at hNoRead
    split at hNoRead
    · rename_i hNate
      simp only [bind_eq_ok, pure_eq_ok, Prod.exists] at hNoRead
      obtain ⟨no, vs, hElseRead, hEq⟩ := hNoRead
      obtain ⟨rfl, rfl⟩ := Prod.mk.inj hEq
      obtain ⟨second, e₃, rfl, hNo, hEnds', -⟩ := h.expression hElseRead
      have hKind := Token.isKeyword_iff.mp hNate
      have hPaired : e₂ ≠ .dangling := fun hDangling =>
        hEnds.noElse hDangling t _ rfl hKind
      refine ⟨tested ++ (ws ++ (first ++ t :: second)), e₃, by simp, ?_, hEnds'⟩
      exact .otherwise hWord hTest hOpening hYes hPaired hKind hNo
    · rename_i hNate
      obtain ⟨rfl, rfl⟩ := Prod.mk.inj (pure_eq_ok.mp hNoRead)
      refine ⟨tested ++ (ws ++ first), .dangling, by simp,
        .conditional hWord hTest hOpening hYes, hStops.noArguments, fun _ => hStops, ?_⟩
      rintro - _ _ ⟨⟩ hKind
      exact hNate (Token.isKeyword_iff.mpr hKind)

theorem Sound.function_succ (h : Sound fin fuel) {k : Token} {ts : List Token} {n : Node}
    {rest : List Token} (hWord : k.OpensFunction)
    (hRead : readFunction fin (fuel + 1) ts = .ok (n, rest)) :
    ∃ taken e, ts = taken ++ rest ∧ Operand (k :: taken) n e ∧ e.Ends rest := by
  simp only [readFunction, bind_eq_ok, pure_eq_ok, takeMark_eq_ok, Prod.exists] at hRead
  obtain ⟨_, us, ⟨o, rfl, hOpen⟩, params, vs, hItems, body, ws, hBodyRead, hEq⟩ := hRead
  obtain ⟨rfl, rfl⟩ := Prod.mk.inj hEq
  obtain ⟨names, c, rfl, hClose, hParams⟩ := readItems_sound takeName_sound hItems
  obtain ⟨inner, e, rfl, hBody, hEnds, -⟩ := h.expression hBodyRead
  refine ⟨o :: (names ++ c :: inner), e, by simp, ?_, hEnds⟩
  exact .function hWord hOpen hParams hClose hBody

/-- One more step of the fuel keeps the readers sound. -/
theorem sound_succ (h : Sound fin fuel) : Sound fin (fuel + 1) where
  expression := h.expression_succ
  chain := h.chain_succ
  arguments := h.arguments_succ
  operand := h.operand_succ
  atom := h.atom_succ
  conditional := h.conditional_succ
  function := h.function_succ

end Step

theorem sound_zero (fin : Ending) : Sound fin 0 where
  expression hRead := by cases hRead
  chain _ _ hRead := by cases hRead
  arguments hRead := by cases hRead
  operand hRead := by cases hRead
  atom hRead := by cases hRead
  conditional _ hRead := by cases hRead
  function _ hRead := by cases hRead

/-- **The readers give phrases of the ordered grammar**, however the scan ended. -/
theorem sound_readers (fin : Ending) (fuel : Nat) : Sound fin fuel := by
  induction fuel with
  | zero => exact sound_zero fin
  | succ fuel ih => exact sound_succ ih

end Ordered

end Zaban
