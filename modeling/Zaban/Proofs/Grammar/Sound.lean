import Zaban.Proofs.Grammar.Derivation

/-!
# What the readers accept

Every phrase that a reader gives is a phrase of the grammar: the tokens that
were taken derive the tree that was built. `Sound` states this for all readers
at one amount of fuel, `sound_succ` proves one step of the fuel, and
`sound_readers` is the induction.

Each statement also says what the reader left unread. A reader of operands
leaves no argument list, and a reader of chains leaves no operator above its
threshold (`Stops`). Soundness needs this: `readExpression` asks for argument
lists once more behind the whole chain, where the grammar has none, and it is
because the chain stopped that this last reader finds nothing.
-/

namespace Zaban

open Grammar

-- ----------------------------------------------------------------------------
-- Outcomes of single steps
-- ----------------------------------------------------------------------------

/-- A step that follows another succeeds only when both do. -/
theorem bind_eq_ok {α β : Type} {x : Outcome α} {f : α → Outcome β} {b : β} :
    (x >>= f) = .ok b ↔ ∃ a, x = .ok a ∧ f a = .ok b := by
  cases x with
  | error e => simp [bind, Except.bind]
  | ok a => simp [bind, Except.bind]

theorem pure_eq_ok {α : Type} {a b : α} : (pure a : Outcome α) = .ok b ↔ a = b := by
  simp [pure, Except.pure]

theorem close_eq_ok {α : Type} {fin : Ending} {a b : α} {rest : List Token} :
    fin.close a = .ok (b, rest) ↔ (∃ p, fin = .finished p) ∧ a = b ∧ rest = [] := by
  cases fin with
  | finished p => simp [Ending.close, eq_comm]
  | failed e => simp [Ending.close]

/-- A token that passes a test is taken, and no other. -/
theorem taken_eq_ok {accepted : Bool} {expected : Expected} {t : Token} {us rest : List Token}
    {u : Unit} :
    (if accepted then (.ok ((), us) : Outcome (Phrase Unit)) else refuse expected t) =
      .ok (u, rest) ↔ accepted = true ∧ us = rest := by
  cases accepted <;> simp [refuse]

theorem takeMark_eq_ok {fin : Ending} {mark : Char} {ts rest : List Token} {u : Unit} :
    takeMark fin mark ts = .ok (u, rest) ↔ ∃ t, ts = t :: rest ∧ t.kind = .punctuation mark := by
  cases ts with
  | nil => simp [takeMark]
  | cons t us =>
    rw [takeMark, taken_eq_ok, Token.isMark_iff]
    constructor
    · rintro ⟨hKind, rfl⟩
      exact ⟨t, rfl, hKind⟩
    · rintro ⟨_, hEq, hKind⟩
      obtain ⟨rfl, rfl⟩ := List.cons.inj hEq
      exact ⟨hKind, rfl⟩

theorem takeKeyword_eq_ok {fin : Ending} {word : Keyword} {ts rest : List Token} {u : Unit} :
    takeKeyword fin word ts = .ok (u, rest) ↔ ∃ t, ts = t :: rest ∧ t.kind = .keyword word := by
  cases ts with
  | nil => simp [takeKeyword]
  | cons t us =>
    rw [takeKeyword, taken_eq_ok, Token.isKeyword_iff]
    constructor
    · rintro ⟨hKind, rfl⟩
      exact ⟨t, rfl, hKind⟩
    · rintro ⟨_, hEq, hKind⟩
      obtain ⟨rfl, rfl⟩ := List.cons.inj hEq
      exact ⟨hKind, rfl⟩

theorem takeName_eq_ok {fin : Ending} {ts rest : List Token} {word : String} :
    takeName fin ts = .ok (word, rest) ↔ ∃ t, ts = t :: rest ∧ t.kind = .name word := by
  cases ts with
  | nil => simp [takeName]
  | cons t us =>
    constructor
    · intro h
      rw [takeName] at h
      split at h
      · rename_i hKind
        obtain ⟨rfl, rfl⟩ := Prod.mk.inj (Except.ok.inj h)
        exact ⟨t, rfl, hKind⟩
      · cases h
    · rintro ⟨_, hEq, hKind⟩
      obtain ⟨rfl, rfl⟩ := List.cons.inj hEq
      simp [takeName, hKind]

/-- A mark that comes next can be taken off the front. -/
theorem eq_cons_of_nextIs {mark : Char} {ts : List Token} (h : nextIs mark ts = true) :
    ∃ t, ts = t :: ts.tail ∧ t.kind = .punctuation mark := by
  obtain ⟨t, us, rfl, hKind⟩ := nextIs_iff.mp h
  exact ⟨t, rfl, hKind⟩

-- ----------------------------------------------------------------------------
-- Lists
-- ----------------------------------------------------------------------------

/-- What may follow an item of a list: nothing, or a separator and further items. -/
def Grammar.Continued {α : Type} (item : List Token → α → Prop) (separator : Char)
    (ts : List Token) (as : List α) : Prop :=
  (ts = [] ∧ as = []) ∨
    ∃ t us, ts = t :: us ∧ t.kind = .punctuation separator ∧ Listed item separator us as

theorem Grammar.Listed.of_item {α : Type} {item : List Token → α → Prop} {separator : Char}
    {ts us : List Token} {a : α} {as : List α} (hItem : item ts a)
    (hRest : Continued item separator us as) : Listed item separator (ts ++ us) (a :: as) := by
  rcases hRest with ⟨rfl, rfl⟩ | ⟨t, vs, rfl, hMark, hRest⟩
  · rw [List.append_nil]
    exact .last hItem
  · exact .cons hItem hMark hRest

/-- A list that was read to its closing mark is a list of the grammar, if its items are items. -/
theorem readItems_sound {α : Type} {fin : Ending} {item : List Token → Outcome (Phrase α)}
    {phrase : List Token → α → Prop} {separator stop : Char}
    (hItems : ∀ {ts a rest}, item ts = .ok (a, rest) → ∃ taken, ts = taken ++ rest ∧ phrase taken a)
    {fuel : Nat} {first : Bool} {ts rest : List Token} {as : List α}
    (h : readItems fin item separator stop fuel first ts = .ok (as, rest)) :
    ∃ taken c, ts = taken ++ c :: rest ∧ c.kind = .punctuation stop ∧
      if first then Listed phrase separator taken as else Continued phrase separator taken as := by
  induction fuel generalizing first ts as with
  | zero => cases h
  | succ fuel ih =>
    -- an item, and what the reader finds behind it
    have hStep : ∀ {us : List Token},
        (item us >>= fun x => readItems fin item separator stop fuel false x.2 >>= fun y =>
          pure (x.1 :: y.1, y.2)) = .ok (as, rest) →
        ∃ taken c, us = taken ++ c :: rest ∧ c.kind = .punctuation stop ∧
          Listed phrase separator taken as := by
      intro us hRead
      simp only [bind_eq_ok, pure_eq_ok, Prod.exists] at hRead
      obtain ⟨a, vs, hItem, bs, _, hRest, hEq⟩ := hRead
      obtain ⟨rfl, rfl⟩ := Prod.mk.inj hEq
      obtain ⟨taken, rfl, hPhrase⟩ := hItems hItem
      obtain ⟨more, c, rfl, hClose, hMore⟩ := ih hRest
      exact ⟨taken ++ more, c, by simp, hClose, .of_item hPhrase hMore⟩
    rw [readItems] at h
    split at h
    · cases h
    split at h
    · -- the closing mark comes next
      rename_i hStop
      obtain ⟨rfl, rfl⟩ := Prod.mk.inj (Except.ok.inj h)
      obtain ⟨c, hEq, hClose⟩ := eq_cons_of_nextIs hStop
      refine ⟨[], c, hEq, hClose, ?_⟩
      cases first with
      | true => exact .nil
      | false => exact Or.inl ⟨rfl, rfl⟩
    rename_i hStop
    cases first with
    | true =>
      simp only [if_true, pure_bind, if_neg hStop] at h
      exact hStep h
    | false =>
      simp only [Bool.false_eq_true, if_false, bind_eq_ok, takeMark_eq_ok, Prod.exists] at h
      obtain ⟨_, us, ⟨t, rfl, hMark⟩, h⟩ := h
      split at h
      · -- a separator behind the last item
        rename_i hEnd
        obtain ⟨rfl, rfl⟩ := Prod.mk.inj (pure_eq_ok.mp h)
        obtain ⟨c, hEq, hClose⟩ := eq_cons_of_nextIs hEnd
        refine ⟨[t], c, ?_, hClose, Or.inr ⟨t, [], rfl, hMark, .nil⟩⟩
        rw [List.singleton_append, ← hEq]
      · obtain ⟨taken, c, rfl, hClose, hListed⟩ := hStep h
        exact ⟨t :: taken, c, rfl, hClose, Or.inr ⟨t, taken, rfl, hMark, hListed⟩⟩

-- ----------------------------------------------------------------------------
-- The parts of a conditional
-- ----------------------------------------------------------------------------

/-- The word before the first branch of a conditional. -/
def readBridge (fin : Ending) (ts : List Token) : Outcome (Phrase Unit) :=
  if nextIs '{' ts then pure ((), ts) else takeKeyword fin .teli ts

/-- The second branch of a conditional, behind the first, or its absence. -/
def readOtherwise (fin : Ending) (fuel : Nat) (test yes : Node) :
    List Token → Outcome (Phrase Node)
  | [] => fin.close (.condition test yes none)
  | t :: ts =>
    if t.isKeyword .nate then do
      let (no, ts) ← readExpression fin fuel ts
      return (.condition test yes (some no), ts)
    else return (.condition test yes none, t :: ts)

/-- A conditional is read in four parts. -/
theorem readConditional_succ (fin : Ending) (fuel : Nat) (ts : List Token) :
    readConditional fin (fuel + 1) ts = (do
      let (test, ts) ← readExpression fin fuel ts
      let (_, ts) ← readBridge fin ts
      let (yes, ts) ← readExpression fin fuel ts
      readOtherwise fin fuel test yes ts) := by
  have hOtherwise : ∀ test yes us, readOtherwise fin fuel test yes us =
      match us with
      | [] => fin.close (.condition test yes none)
      | t :: rest =>
        if t.isKeyword .nate then do
          let (no, ts) ← readExpression fin fuel rest
          return (.condition test yes (some no), ts)
        else return (.condition test yes none, us) := by
    intro test yes us
    cases us <;> rfl
  rw [readConditional]
  congr 1
  funext ⟨test, us⟩
  simp only [readBridge, hOtherwise]
  split <;> rfl
theorem readBridge_sound {fin : Ending} {ts us : List Token} {u : Unit}
    (h : readBridge fin ts = .ok (u, us)) : ∃ ws, ts = ws ++ us ∧ Bridge ws us := by
  rw [readBridge] at h
  split at h
  · rename_i hBrace
    obtain ⟨-, rfl⟩ := Prod.mk.inj (pure_eq_ok.mp h)
    exact ⟨[], rfl, Or.inr ⟨rfl, hBrace⟩⟩
  · obtain ⟨t, rfl, hTeli⟩ := takeKeyword_eq_ok.mp h
    exact ⟨[t], rfl, Or.inl ⟨t, rfl, hTeli⟩⟩

-- ----------------------------------------------------------------------------
-- Groupings of chains
-- ----------------------------------------------------------------------------

/-- A chain whose first operand is itself a grouped chain is one chain. -/
theorem Grammar.Grouping.graft {first mid n : Node} {xs ys : List (ChainOp × Node)}
    (hMid : Grouping first xs mid) (h : Grouping mid ys n) : Grouping first (xs ++ ys) n := by
  induction h with
  | operand n => simpa using hMid
  | join _ hRight ihLeft _ =>
    rw [← List.append_assoc]
    exact .join (ihLeft hMid) hRight

theorem Grammar.Tail.append {operand : List Token → Node → Prop} {ts us : List Token}
    {xs ys : List (ChainOp × Node)} (hTs : Tail operand ts xs) (hUs : Tail operand us ys) :
    Tail operand (ts ++ us) (xs ++ ys) := by
  induction hTs with
  | nil => exact hUs
  | cons hOp hOperand _ ih =>
    rw [List.append_assoc]
    exact .cons hOp hOperand ih

-- ----------------------------------------------------------------------------
-- The readers
-- ----------------------------------------------------------------------------

/-- Neither an argument list nor an operator above `threshold` comes next. -/
structure Stops (threshold : Nat) (ts : List Token) : Prop where
  noArguments : nextIs '(' ts = false
  noOperator  : ∀ t us op, ts = t :: us → t.chainOp? = some op → op.precedence ≤ threshold

theorem stops_nil (threshold : Nat) : Stops threshold [] :=
  ⟨rfl, by rintro _ _ _ ⟨⟩⟩

theorem ChainOp.precedence_pos (op : ChainOp) : 0 < op.precedence := by
  cases op with
  | assign => decide
  | compute op => cases op <;> decide

/-- An operator never comes next where a chain with threshold zero stopped. -/
theorem Stops.chainOp?_eq_none {t : Token} {ts : List Token} (h : Stops 0 (t :: ts)) :
    t.chainOp? = none := by
  cases hOp : t.chainOp? with
  | none => rfl
  | some op =>
    have hWeak := h.noOperator t ts op rfl hOp
    have hPos := op.precedence_pos
    omega

/-- What every reader gives, with one amount of fuel: the tokens taken derive the phrase. -/
structure Sound (fin : Ending) (fuel : Nat) : Prop where
  expression : ∀ {ts n rest}, readExpression fin fuel ts = .ok (n, rest) →
    ∃ taken, ts = taken ++ rest ∧ Expression taken n ∧ Stops 0 rest
  chain : ∀ {threshold left ts n rest}, nextIs '(' ts = false →
    readChain fin fuel threshold left ts = .ok (n, rest) →
    ∃ taken xs, ts = taken ++ rest ∧ Tail Operand taken xs ∧ Grouping left xs n ∧
      Stops threshold rest
  arguments : ∀ {callee ts n rest}, readArguments fin fuel callee ts = .ok (n, rest) →
    ∃ taken, ts = taken ++ rest ∧ nextIs '(' rest = false ∧
      (∀ us, Operand us callee → Operand (us ++ taken) n) ∧
      (nextIs '(' ts = false → taken = [] ∧ n = callee)
  operand : ∀ {ts n rest}, readOperand fin fuel ts = .ok (n, rest) →
    ∃ taken, ts = taken ++ rest ∧ Operand taken n ∧ nextIs '(' rest = false
  atom : ∀ {t ts n rest}, readAtom fin fuel t ts = .ok (n, rest) →
    ∃ taken, ts = taken ++ rest ∧ Primary (t :: taken) n
  conditional : ∀ {k ts n rest}, k.kind = .keyword .yeli →
    readConditional fin fuel ts = .ok (n, rest) →
    ∃ taken, ts = taken ++ rest ∧ Primary (k :: taken) n
  function : ∀ {k ts n rest}, k.OpensFunction → readFunction fin fuel ts = .ok (n, rest) →
    ∃ taken, ts = taken ++ rest ∧ Primary (k :: taken) n

section Step

variable {fin : Ending} {fuel : Nat}

theorem Sound.item (h : Sound fin fuel) {ts : List Token} {n : Node} {rest : List Token}
    (hRead : readExpression fin fuel ts = .ok (n, rest)) :
    ∃ taken, ts = taken ++ rest ∧ Expression taken n := by
  obtain ⟨taken, hEq, hExpression, -⟩ := h.expression hRead
  exact ⟨taken, hEq, hExpression⟩

theorem takeName_sound {ts : List Token} {word : String} {rest : List Token}
    (hRead : takeName fin ts = .ok (word, rest)) :
    ∃ taken, ts = taken ++ rest ∧ Name taken word := by
  obtain ⟨t, rfl, hKind⟩ := takeName_eq_ok.mp hRead
  exact ⟨[t], rfl, t, rfl, hKind⟩

/-- The reader of argument lists behind the chain finds none, since the chain stopped. -/
theorem Sound.expression_succ (h : Sound fin fuel) {ts : List Token} {n : Node}
    {rest : List Token} (hRead : readExpression fin (fuel + 1) ts = .ok (n, rest)) :
    ∃ taken, ts = taken ++ rest ∧ Expression taken n ∧ Stops 0 rest := by
  rw [readExpression] at hRead
  simp only [bind_eq_ok, Prod.exists] at hRead
  obtain ⟨first, us, hFirst, chain, vs, hChain, hArgs⟩ := hRead
  obtain ⟨head, rfl, hOperand, hNext⟩ := h.operand hFirst
  obtain ⟨tail, xs, rfl, hTail, hTree, hStops⟩ := h.chain hNext hChain
  obtain ⟨more, rfl, -, -, hNone⟩ := h.arguments hArgs
  obtain ⟨rfl, rfl⟩ := hNone hStops.noArguments
  exact ⟨head ++ tail, by simp, .chain hOperand hTail hTree, hStops⟩

theorem Sound.chain_succ (h : Sound fin fuel) {threshold : Nat} {left : Node}
    {ts : List Token} {n : Node} {rest : List Token} (hNext : nextIs '(' ts = false)
    (hRead : readChain fin (fuel + 1) threshold left ts = .ok (n, rest)) :
    ∃ taken xs, ts = taken ++ rest ∧ Tail Operand taken xs ∧ Grouping left xs n ∧
      Stops threshold rest := by
  cases ts with
  | nil =>
    rw [readChain, close_eq_ok] at hRead
    obtain ⟨-, rfl, rfl⟩ := hRead
    exact ⟨[], [], rfl, .nil, .operand _, stops_nil _⟩
  | cons t us =>
    simp only [readChain] at hRead
    split at hRead
    · -- no operator
      rename_i hNone
      obtain ⟨rfl, rfl⟩ := Prod.mk.inj (Except.ok.inj hRead)
      refine ⟨[], [], rfl, .nil, .operand _, hNext, ?_⟩
      intro v vs op hEq hOp
      obtain ⟨rfl, rfl⟩ := List.cons.inj hEq
      rw [hNone] at hOp
      cases hOp
    · rename_i op hOp
      split at hRead
      · -- an operator that binds too weakly
        rename_i hWeak
        obtain ⟨rfl, rfl⟩ := Prod.mk.inj (Except.ok.inj hRead)
        refine ⟨[], [], rfl, .nil, .operand _, hNext, ?_⟩
        intro v vs op' hEq hOp'
        obtain ⟨rfl, rfl⟩ := List.cons.inj hEq
        rw [hOp] at hOp'
        obtain rfl := Option.some.inj hOp'
        exact hWeak
      · simp only [bind_eq_ok, Prod.exists] at hRead
        obtain ⟨next, vs, hOperandRead, right, ws, hRight, hMore⟩ := hRead
        obtain ⟨head, rfl, hOperand, hNext'⟩ := h.operand hOperandRead
        obtain ⟨inner, xs, rfl, hInner, hRightTree, hStops⟩ := h.chain hNext' hRight
        obtain ⟨outer, ys, rfl, hOuter, hTree, hEnd⟩ := h.chain hStops.noArguments hMore
        refine ⟨t :: head ++ (inner ++ outer), (op, next) :: (xs ++ ys), by simp,
          .cons hOp hOperand (hInner.append hOuter), ?_, hEnd⟩
        have hJoined : Grouping left ((op, next) :: xs) (op.join left right) :=
          .join (.operand left) hRightTree
        exact hJoined.graft hTree

theorem Sound.arguments_succ (h : Sound fin fuel) {callee : Node} {ts : List Token} {n : Node}
    {rest : List Token} (hRead : readArguments fin (fuel + 1) callee ts = .ok (n, rest)) :
    ∃ taken, ts = taken ++ rest ∧ nextIs '(' rest = false ∧
      (∀ us, Operand us callee → Operand (us ++ taken) n) ∧
      (nextIs '(' ts = false → taken = [] ∧ n = callee) := by
  cases ts with
  | nil =>
    rw [readArguments, close_eq_ok] at hRead
    obtain ⟨-, rfl, rfl⟩ := hRead
    exact ⟨[], rfl, rfl, fun us hUs => by rwa [List.append_nil], fun _ => ⟨rfl, rfl⟩⟩
  | cons o us =>
    simp only [readArguments] at hRead
    split at hRead
    · rename_i hOpen
      simp only [bind_eq_ok, Prod.exists] at hRead
      obtain ⟨args, vs, hItems, hMore⟩ := hRead
      obtain ⟨inner, c, rfl, hClose, hArgs⟩ := readItems_sound h.item hItems
      obtain ⟨more, rfl, hNext, hGrow, -⟩ := h.arguments hMore
      refine ⟨o :: (inner ++ [c]) ++ more, by simp, hNext, ?_, ?_⟩
      · intro ws hCallee
        rw [← List.append_assoc]
        exact hGrow _ (.call hCallee (Token.isMark_iff.mp hOpen) hArgs hClose)
      · intro hNone
        rw [nextIs_cons, hOpen] at hNone
        cases hNone
    · rename_i hOpen
      obtain ⟨rfl, rfl⟩ := Prod.mk.inj (Except.ok.inj hRead)
      exact ⟨[], rfl, by simpa using hOpen, fun us hUs => by rwa [List.append_nil],
        fun _ => ⟨rfl, rfl⟩⟩

theorem Sound.operand_succ (h : Sound fin fuel) {ts : List Token} {n : Node}
    {rest : List Token} (hRead : readOperand fin (fuel + 1) ts = .ok (n, rest)) :
    ∃ taken, ts = taken ++ rest ∧ Operand taken n ∧ nextIs '(' rest = false := by
  cases ts with
  | nil => cases hRead
  | cons t us =>
    simp only [readOperand, bind_eq_ok, Prod.exists] at hRead
    obtain ⟨atom, vs, hAtom, hArgs⟩ := hRead
    obtain ⟨inner, rfl, hPrimary⟩ := h.atom hAtom
    obtain ⟨more, rfl, hNext, hGrow, -⟩ := h.arguments hArgs
    exact ⟨t :: inner ++ more, by simp, hGrow _ (.primary hPrimary), hNext⟩

theorem Sound.atom_succ (h : Sound fin fuel) {t : Token} {ts : List Token} {n : Node}
    {rest : List Token} (hRead : readAtom fin (fuel + 1) t ts = .ok (n, rest)) :
    ∃ taken, ts = taken ++ rest ∧ Primary (t :: taken) n := by
  rw [readAtom] at hRead
  split at hRead
  · -- a group
    rename_i hOpen
    simp only [bind_eq_ok, pure_eq_ok, takeMark_eq_ok, Prod.exists] at hRead
    obtain ⟨inner, us, hInner, _, vs, ⟨c, rfl, hClose⟩, hEq⟩ := hRead
    obtain ⟨rfl, rfl⟩ := Prod.mk.inj hEq
    obtain ⟨taken, rfl, hExpression⟩ := h.item hInner
    exact ⟨taken ++ [c], by simp, .group hOpen hExpression hClose⟩
  · -- a block
    rename_i hOpen
    simp only [bind_eq_ok, pure_eq_ok, Prod.exists] at hRead
    obtain ⟨body, us, hItems, hEq⟩ := hRead
    obtain ⟨rfl, rfl⟩ := Prod.mk.inj hEq
    obtain ⟨taken, c, rfl, hClose, hBody⟩ := readItems_sound h.item hItems
    exact ⟨taken ++ [c], by simp, .block hOpen hBody hClose⟩
  · exact h.conditional ‹_› hRead
  · exact h.function (Or.inl ‹_›) hRead
  · exact h.function (Or.inr ‹_›) hRead
  -- what is left are the leaves, and the tokens that no expression starts with
  all_goals first
    | cases hRead
      exact ⟨[], rfl, .leaf (by simp [Token.leaf?, *])⟩
    | cases hRead

theorem Sound.otherwise (h : Sound fin fuel) {test yes : Node} {ts : List Token} {n : Node}
    {rest : List Token} (hRead : readOtherwise fin fuel test yes ts = .ok (n, rest)) :
    ∃ taken no, ts = taken ++ rest ∧ n = .condition test yes no ∧
      Otherwise Expression taken no := by
  cases ts with
  | nil =>
    obtain ⟨-, rfl, rfl⟩ := close_eq_ok.mp hRead
    exact ⟨[], none, rfl, rfl, .absent⟩
  | cons t us =>
    rw [readOtherwise] at hRead
    split at hRead
    · rename_i hNate
      simp only [bind_eq_ok, pure_eq_ok, Prod.exists] at hRead
      obtain ⟨no, vs, hNoRead, hEq⟩ := hRead
      obtain ⟨rfl, rfl⟩ := Prod.mk.inj hEq
      obtain ⟨taken, rfl, hNo⟩ := h.item hNoRead
      exact ⟨t :: taken, some no, rfl, rfl, .present (Token.isKeyword_iff.mp hNate) hNo⟩
    · obtain ⟨rfl, rfl⟩ := Prod.mk.inj (pure_eq_ok.mp hRead)
      exact ⟨[], none, rfl, rfl, .absent⟩

theorem Sound.conditional_succ (h : Sound fin fuel) {k : Token} {ts : List Token} {n : Node}
    {rest : List Token} (hWord : k.kind = .keyword .yeli)
    (hRead : readConditional fin (fuel + 1) ts = .ok (n, rest)) :
    ∃ taken, ts = taken ++ rest ∧ Primary (k :: taken) n := by
  simp only [readConditional_succ, bind_eq_ok, Prod.exists] at hRead
  obtain ⟨test, us, hTestRead, _, vs, hBridgeRead, yes, xs, hYesRead, hNoRead⟩ := hRead
  obtain ⟨tested, rfl, hTest⟩ := h.item hTestRead
  obtain ⟨ws, rfl, hBridge⟩ := readBridge_sound hBridgeRead
  obtain ⟨first, rfl, hYes⟩ := h.item hYesRead
  obtain ⟨second, no, rfl, rfl, hNo⟩ := h.otherwise hNoRead
  -- the brace that may stand for `teli` is the first token of the branch itself
  have hOpening : Bridge ws first := by
    rcases hBridge with hTeli | ⟨rfl, hBrace⟩
    · exact Or.inl hTeli
    · obtain ⟨t, _, rfl, -⟩ := hYes.opens
      exact Or.inr ⟨rfl, hBrace⟩
  exact ⟨tested ++ (ws ++ (first ++ second)), by simp,
    .conditional hWord hTest hOpening hYes hNo⟩

theorem Sound.function_succ (h : Sound fin fuel) {k : Token} {ts : List Token} {n : Node}
    {rest : List Token} (hWord : k.OpensFunction)
    (hRead : readFunction fin (fuel + 1) ts = .ok (n, rest)) :
    ∃ taken, ts = taken ++ rest ∧ Primary (k :: taken) n := by
  simp only [readFunction, bind_eq_ok, pure_eq_ok, takeMark_eq_ok, Prod.exists] at hRead
  obtain ⟨_, us, ⟨o, rfl, hOpen⟩, params, vs, hItems, body, ws, hBodyRead, hEq⟩ := hRead
  obtain ⟨rfl, rfl⟩ := Prod.mk.inj hEq
  obtain ⟨names, c, rfl, hClose, hParams⟩ := readItems_sound takeName_sound hItems
  obtain ⟨inner, rfl, hBody⟩ := h.item hBodyRead
  exact ⟨o :: (names ++ c :: inner), by simp, .function hWord hOpen hParams hClose hBody⟩

/-- One more step of the fuel keeps the readers sound. -/
theorem sound_succ (h : Sound fin fuel) : Sound fin (fuel + 1) where
  expression := h.expression_succ
  chain := h.chain_succ
  arguments := h.arguments_succ
  operand := h.operand_succ
  atom := h.atom_succ
  conditional := h.conditional_succ
  function := h.function_succ

end Step

/-- Without fuel no reader gives anything. -/
theorem sound_zero (fin : Ending) : Sound fin 0 where
  expression hRead := by cases hRead
  chain _ hRead := by cases hRead
  arguments hRead := by cases hRead
  operand hRead := by cases hRead
  atom hRead := by cases hRead
  conditional _ hRead := by cases hRead
  function _ hRead := by cases hRead

/-- **The readers are sound**, with any amount of fuel and however the scan ended. -/
theorem sound_readers (fin : Ending) (fuel : Nat) : Sound fin fuel := by
  induction fuel with
  | zero => exact sound_zero fin
  | succ fuel ih => exact sound_succ ih

/-- A program is read to the end of the tokens, and is a list of the grammar. -/
theorem readProgram_sound {fin : Ending} {fuel : Nat} {ts rest : List Token} {xs : List Node}
    (h : readProgram fin fuel ts = .ok (xs, rest)) : rest = [] ∧ Listed Expression ';' ts xs := by
  induction fuel generalizing ts xs with
  | zero => cases h
  | succ fuel ih =>
    cases ts with
    | nil =>
      rw [readProgram, close_eq_ok] at h
      obtain ⟨-, rfl, rfl⟩ := h
      exact ⟨rfl, .nil⟩
    | cons t us =>
      simp only [readProgram, bind_eq_ok, Prod.exists] at h
      obtain ⟨x, vs, hRead, h⟩ := h
      obtain ⟨taken, hEq, hExpression⟩ := (sound_readers fin fuel).item hRead
      rw [hEq]
      split at h
      · obtain ⟨-, rfl, rfl⟩ := close_eq_ok.mp h
        rw [List.append_nil]
        exact ⟨rfl, .last hExpression⟩
      · simp only [bind_eq_ok, pure_eq_ok, takeMark_eq_ok, Prod.exists] at h
        obtain ⟨_, ws, ⟨s, hMark, hKind⟩, ys, zs, hMore, hPair⟩ := h
        obtain ⟨rfl, rfl⟩ := Prod.mk.inj hPair
        obtain ⟨rfl, hRest⟩ := ih hMore
        rw [hMark]
        exact ⟨rfl, .cons hExpression hKind hRest⟩

end Zaban
