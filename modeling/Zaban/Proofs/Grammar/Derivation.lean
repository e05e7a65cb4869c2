import Zaban.Syntax.Grammar

/-!
# The grammar as derivations

The readers of `Zaban.Syntax.Grammar` decide token by token. The **grammar**
here says which token lists are phrases, and of which trees, without reading
them in any order:

* `Program`    — nothing, or expressions with `;` between them and maybe after
  the last;
* `Expression` — operands with operators between them;
* `Operand`    — a primary and any number of argument lists;
* `Primary`    — a leaf, a group, a block, a conditional or a function.

The operators and the trees that they make are those of the table in
`ChainOp.ofSymbol?_eq_some_iff`.

The grammar is **ambiguous**. A chain of operands does not say how it is
grouped, so an expression has every tree that keeps its operands and operators
in order (`Grouping`). A branch or a function body may end before an operator,
an argument list or a `nate` that could still belong to it. `derives_induction`
is the one induction over derivations; everything else about them is read off
single rules.

`Spells` ties a tree to its tokens without naming a derivation: the **atoms**
of the tree (names, literals, operators, functions, conditionals) are those of
the tokens, in the same order.
-/

namespace Zaban

-- ----------------------------------------------------------------------------
-- Kinds of tokens
-- ----------------------------------------------------------------------------

namespace Token

theorem isMark_iff {mark : Char} {t : Token} :
    t.isMark mark = true ↔ t.kind = .punctuation mark := by
  unfold isMark
  cases t.kind <;> simp

theorem isKeyword_iff {word : Keyword} {t : Token} :
    t.isKeyword word = true ↔ t.kind = .keyword word := by
  unfold isKeyword
  cases t.kind <;> simp

/-- The tree of a token that is an expression by itself: a name or a literal. -/
def leaf? (t : Token) : Option Node :=
  match t.kind with
  | .keyword .poz => some (.boolean true)
  | .keyword .apuz => some (.boolean false)
  | .name word => some (.var word)
  | .number value => some (.number value)
  | .string value => some (.string value)
  | _ => none

/-- The token opens a function. -/
def OpensFunction (t : Token) : Prop :=
  t.kind = .keyword .banav ∨ t.kind = .keyword .lambda

/-- The token can stand first in an expression. -/
inductive Opens (t : Token) : Prop where
  | leaf {n : Node} (hLeaf : t.leaf? = some n)
  | group (hOpen : t.kind = .punctuation '(')
  | block (hOpen : t.kind = .punctuation '{')
  | conditional (hWord : t.kind = .keyword .yeli)
  | function (hWord : t.OpensFunction)

/-- Of the punctuation characters, only the opening bracket and brace stand first. -/
theorem Opens.punctuation {t : Token} (h : t.Opens) {mark : Char}
    (hKind : t.kind = .punctuation mark) : mark = '(' ∨ mark = '{' := by
  cases h with
  | leaf hLeaf => simp [leaf?, hKind] at hLeaf
  | group hOpen =>
    rw [hKind] at hOpen
    exact Or.inl (TokenKind.punctuation.inj hOpen)
  | block hOpen =>
    rw [hKind] at hOpen
    exact Or.inr (TokenKind.punctuation.inj hOpen)
  | conditional hWord => simp [hKind] at hWord
  | function hWord => simp [OpensFunction, hKind] at hWord

end Token

theorem nextIs_iff {mark : Char} {ts : List Token} :
    nextIs mark ts = true ↔ ∃ t us, ts = t :: us ∧ t.kind = .punctuation mark := by
  cases ts with
  | nil => simp [nextIs]
  | cons t us => simp [nextIs, Token.isMark_iff]

@[simp] theorem nextIs_nil (mark : Char) : nextIs mark [] = false := rfl

@[simp] theorem nextIs_cons (mark : Char) (t : Token) (ts : List Token) :
    nextIs mark (t :: ts) = t.isMark mark := rfl

-- ----------------------------------------------------------------------------
-- The grammar
-- ----------------------------------------------------------------------------

namespace Grammar

/-- Items with separators between them; one separator may stand behind the last item. -/
inductive Listed {α : Type} (item : List Token → α → Prop) (separator : Char) :
    List Token → List α → Prop where
  | nil : Listed item separator [] []
  | last {ts : List Token} {a : α} (hItem : item ts a) : Listed item separator ts [a]
  | cons {ts us : List Token} {t : Token} {a : α} {as : List α}
      (hItem : item ts a) (hMark : t.kind = .punctuation separator)
      (hRest : Listed item separator us as) :
      Listed item separator (ts ++ t :: us) (a :: as)

/-- Operators, each with the operand behind it. -/
inductive Tail (operand : List Token → Node → Prop) :
    List Token → List (ChainOp × Node) → Prop where
  | nil : Tail operand [] []
  | cons {t : Token} {op : ChainOp} {ts us : List Token} {n : Node}
      {rest : List (ChainOp × Node)}
      (hOp : t.chainOp? = some op) (hOperand : operand ts n) (hRest : Tail operand us rest) :
      Tail operand (t :: ts ++ us) ((op, n) :: rest)

/-- The trees that a chain can be grouped into: the first operand, and the operators with the
operands behind them, stay in their order. -/
inductive Grouping : Node → List (ChainOp × Node) → Node → Prop where
  | operand (n : Node) : Grouping n [] n
  | join {a b l r : Node} {op : ChainOp} {xs ys : List (ChainOp × Node)}
      (hLeft : Grouping a xs l) (hRight : Grouping b ys r) :
      Grouping a (xs ++ (op, b) :: ys) (op.join l r)

/-- The second branch of a conditional, behind `nate`, or its absence. -/
inductive Otherwise (expression : List Token → Node → Prop) :
    List Token → Option Node → Prop where
  | absent : Otherwise expression [] none
  | present {t : Token} {ts : List Token} {n : Node}
      (hWord : t.kind = .keyword .nate) (hBranch : expression ts n) :
      Otherwise expression (t :: ts) (some n)

/-- What stands before the first branch `us` of a conditional: `teli`, or nothing where the branch
opens with a brace. -/
def Bridge (ws us : List Token) : Prop :=
  (∃ t, ws = [t] ∧ t.kind = .keyword .teli) ∨ (ws = [] ∧ nextIs '{' us = true)

/-- A name by itself. -/
def Name (ts : List Token) (word : String) : Prop :=
  ∃ t, ts = [t] ∧ t.kind = .name word

mutual

/-- The tokens are a chain of operands, and the tree groups it. -/
inductive Expression : List Token → Node → Prop where
  | chain {ts us : List Token} {first n : Node} {rest : List (ChainOp × Node)}
      (hFirst : Operand ts first) (hRest : Tail Operand us rest)
      (hTree : Grouping first rest n) :
      Expression (ts ++ us) n

/-- The tokens are a primary with the argument lists it is applied to. -/
inductive Operand : List Token → Node → Prop where
  | primary {ts : List Token} {n : Node} (hPrimary : Primary ts n) : Operand ts n
  | call {ts us : List Token} {o c : Token} {callee : Node} {args : List Node}
      (hCallee : Operand ts callee) (hOpen : o.kind = .punctuation '(')
      (hArgs : Listed Expression ',' us args) (hClose : c.kind = .punctuation ')') :
      Operand (ts ++ o :: (us ++ [c])) (.call callee args)

/-- The tokens are an operand that is not a call. -/
inductive Primary : List Token → Node → Prop where
  | leaf {t : Token} {n : Node} (hLeaf : t.leaf? = some n) : Primary [t] n
  | group {ts : List Token} {o c : Token} {n : Node}
      (hOpen : o.kind = .punctuation '(') (hInner : Expression ts n)
      (hClose : c.kind = .punctuation ')') :
      Primary (o :: (ts ++ [c])) n
  | block {ts : List Token} {o c : Token} {body : List Node}
      (hOpen : o.kind = .punctuation '{') (hBody : Listed Expression ';' ts body)
      (hClose : c.kind = .punctuation '}') :
      Primary (o :: (ts ++ [c])) (blockNode body)
  | conditional {k : Token} {ts ws us vs : List Token} {test yes : Node} {no : Option Node}
      (hWord : k.kind = .keyword .yeli) (hTest : Expression ts test) (hBridge : Bridge ws us)
      (hYes : Expression us yes) (hNo : Otherwise Expression vs no) :
      Primary (k :: (ts ++ (ws ++ (us ++ vs)))) (.condition test yes no)
  | function {k o c : Token} {ts us : List Token} {params : List String} {body : Node}
      (hWord : k.OpensFunction) (hOpen : o.kind = .punctuation '(')
      (hParams : Listed Name ',' ts params) (hClose : c.kind = .punctuation ')')
      (hBody : Expression us body) :
      Primary (k :: o :: (ts ++ c :: us)) (.lambda params body)

end

/-- The tokens are a whole program. -/
inductive Program : List Token → Node → Prop where
  | body {ts : List Token} {xs : List Node} (hBody : Listed Expression ';' ts xs) :
      Program ts (.program xs)

-- ----------------------------------------------------------------------------
-- Induction over derivations
-- ----------------------------------------------------------------------------

theorem Listed.imp {α : Type} {item item' : List Token → α → Prop} {separator : Char}
    (hImp : ∀ ts a, item ts a → item' ts a) {ts : List Token} {as : List α}
    (h : Listed item separator ts as) : Listed item' separator ts as := by
  induction h with
  | nil => exact .nil
  | last hItem => exact .last (hImp _ _ hItem)
  | cons hItem hMark _ ih => exact .cons (hImp _ _ hItem) hMark ih

/-- Both predicates hold of a phrase. -/
def Both (A B : List Token → Node → Prop) (ts : List Token) (n : Node) : Prop :=
  A ts n ∧ B ts n

/-- Predicates on expressions, operands and primaries that every rule of the grammar preserves. A
rule may use of the phrases inside both that they are phrases and that the predicates hold. -/
structure Rules (E O P : List Token → Node → Prop) : Prop where
  chain : ∀ {ts us : List Token} {first n : Node} {rest : List (ChainOp × Node)},
    Both Operand O ts first → Tail (Both Operand O) us rest → Grouping first rest n →
    E (ts ++ us) n
  primary : ∀ {ts : List Token} {n : Node}, Both Primary P ts n → O ts n
  call : ∀ {ts us : List Token} {o c : Token} {callee : Node} {args : List Node},
    Both Operand O ts callee → o.kind = .punctuation '(' →
    Listed (Both Expression E) ',' us args → c.kind = .punctuation ')' →
    O (ts ++ o :: (us ++ [c])) (.call callee args)
  leaf : ∀ {t : Token} {n : Node}, t.leaf? = some n → P [t] n
  group : ∀ {ts : List Token} {o c : Token} {n : Node},
    o.kind = .punctuation '(' → Both Expression E ts n → c.kind = .punctuation ')' →
    P (o :: (ts ++ [c])) n
  block : ∀ {ts : List Token} {o c : Token} {body : List Node},
    o.kind = .punctuation '{' → Listed (Both Expression E) ';' ts body →
    c.kind = .punctuation '}' → P (o :: (ts ++ [c])) (blockNode body)
  conditional : ∀ {k : Token} {ts ws us vs : List Token} {test yes : Node} {no : Option Node},
    k.kind = .keyword .yeli → Both Expression E ts test → Bridge ws us →
    Both Expression E us yes → Otherwise (Both Expression E) vs no →
    P (k :: (ts ++ (ws ++ (us ++ vs)))) (.condition test yes no)
  function : ∀ {k o c : Token} {ts us : List Token} {params : List String} {body : Node},
    k.OpensFunction → o.kind = .punctuation '(' → Listed Name ',' ts params →
    c.kind = .punctuation ')' → Both Expression E us body →
    P (k :: o :: (ts ++ c :: us)) (.lambda params body)

/-- **Induction over derivations.** The grammar is the least family of phrases that its rules
preserve: what they preserve holds of every expression. -/
theorem derives_induction {E O P : List Token → Node → Prop} (hRules : Rules E O P)
    {ts : List Token} {n : Node} (h : Expression ts n) : E ts n :=
  -- one motive for each predicate of the grammar, then one for each list that is nested in it
  (@Expression.rec (fun ts n _ => Both Expression E ts n) (fun ts n _ => Both Operand O ts n)
    (fun ts n _ => Both Primary P ts n) (fun ts xs _ => Tail (Both Operand O) ts xs)
    (fun ts xs _ => Listed (Both Expression E) ',' ts xs)
    (fun ts xs _ => Listed (Both Expression E) ';' ts xs)
    (fun ts no _ => Otherwise (Both Expression E) ts no)
    (fun hFirst hRest hTree ihFirst ihRest =>
      ⟨.chain hFirst hRest hTree, hRules.chain ihFirst ihRest hTree⟩)
    (fun hPrimary ihPrimary => ⟨.primary hPrimary, hRules.primary ihPrimary⟩)
    (fun hCallee hOpen hArgs hClose ihCallee ihArgs =>
      ⟨.call hCallee hOpen hArgs hClose, hRules.call ihCallee hOpen ihArgs hClose⟩)
    (fun hLeaf => ⟨.leaf hLeaf, hRules.leaf hLeaf⟩)
    (fun hOpen hInner hClose ihInner =>
      ⟨.group hOpen hInner hClose, hRules.group hOpen ihInner hClose⟩)
    (fun hOpen hBody hClose ihBody =>
      ⟨.block hOpen hBody hClose, hRules.block hOpen ihBody hClose⟩)
    (fun hWord hTest hBridge hYes hNo ihTest ihYes ihNo =>
      ⟨.conditional hWord hTest hBridge hYes hNo,
        hRules.conditional hWord ihTest hBridge ihYes ihNo⟩)
    (fun hWord hOpen hParams hClose hBody ihBody =>
      ⟨.function hWord hOpen hParams hClose hBody,
        hRules.function hWord hOpen hParams hClose ihBody⟩)
    .nil (fun hOp _ _ ihOperand ihRest => .cons hOp ihOperand ihRest)
    .nil (fun _ ihItem => .last ihItem) (fun _ hMark _ ihItem ihRest => .cons ihItem hMark ihRest)
    .nil (fun _ ihItem => .last ihItem) (fun _ hMark _ ihItem ihRest => .cons ihItem hMark ihRest)
    .absent (fun hWord _ ihBranch => .present hWord ihBranch) ts n h).2

/-- Every expression has a first token, which can stand first in an expression. -/
theorem Expression.opens {ts : List Token} {n : Node} (h : Expression ts n) :
    ∃ t us, ts = t :: us ∧ t.Opens := by
  refine derives_induction (E := fun ts _ => ∃ t us, ts = t :: us ∧ t.Opens)
    (O := fun ts _ => ∃ t us, ts = t :: us ∧ t.Opens)
    (P := fun ts _ => ∃ t us, ts = t :: us ∧ t.Opens) ?_ h
  exact {
    chain := by
      rintro _ us _ _ _ ⟨-, t, vs, rfl, hOpens⟩ _ _
      exact ⟨t, vs ++ us, rfl, hOpens⟩
    primary := fun hPrimary => hPrimary.2
    call := by
      rintro _ us o c _ _ ⟨-, t, vs, rfl, hOpens⟩ _ _ _
      exact ⟨t, vs ++ o :: (us ++ [c]), rfl, hOpens⟩
    leaf := fun hLeaf => ⟨_, _, rfl, .leaf hLeaf⟩
    group := fun hOpen _ _ => ⟨_, _, rfl, .group hOpen⟩
    block := fun hOpen _ _ => ⟨_, _, rfl, .block hOpen⟩
    conditional := fun hWord _ _ _ _ => ⟨_, _, rfl, .conditional hWord⟩
    function := fun hWord _ _ _ _ => ⟨_, _, rfl, .function hWord⟩ }

theorem Expression.ne_nil {ts : List Token} {n : Node} (h : Expression ts n) : ts ≠ [] := by
  obtain ⟨t, us, rfl, -⟩ := h.opens
  exact List.cons_ne_nil t us

/-- A closing mark or a separator never stands first in an expression. -/
theorem Expression.nextIs_eq_false {ts : List Token} {n : Node} (h : Expression ts n)
    {mark : Char} (hParen : mark ≠ '(') (hBrace : mark ≠ '{') (rest : List Token) :
    nextIs mark (ts ++ rest) = false := by
  obtain ⟨t, us, rfl, hOpens⟩ := h.opens
  rw [List.cons_append, nextIs_cons, Bool.eq_false_iff]
  intro hMark
  rcases hOpens.punctuation (Token.isMark_iff.mp hMark) with hEq | hEq
  · exact hParen hEq
  · exact hBrace hEq

end Grammar

end Zaban
