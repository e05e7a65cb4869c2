import Mathlib.Data.List.Basic
import Zaban.Proofs.Grammar.LookAhead
import Zaban.Proofs.Grammar.Recognition
import Zaban.Proofs.Token.Order

/-!
# Errors are found at the earliest token

A syntax error is reported at the first token that makes the tokens so far
more than the beginning of a program:

* **not later** — no program begins with the tokens up to and with the one that
  was refused, and every text whose tokens begin with the same kinds is refused
  at the same place for the same reason. This is one token of look-ahead.
* **not earlier** — the tokens before it are a **viable** prefix: some tokens
  complete them to a program.

Viability only has to be shown for tokens that run out (`Unfinished`). The
tokens before a refused one, read by themselves, are a program, or the readers
run into their end; a refusal among them would have come first.

What a reader has read when the tokens run out begins a phrase of the grammar
(`Begins`), one case for each place of the grammar where they can. The grammar
is ambiguous, so it is enough to find some phrase; that the readers accept it,
if perhaps with another tree, is their completeness.
-/

namespace Zaban

open Reader Grammar

-- ----------------------------------------------------------------------------
-- Running out of tokens
-- ----------------------------------------------------------------------------

/-- The fault was found behind the last token: the text ends there, or a word is at fault. -/
def RunsOut {α : Type} (o : Outcome α) : Prop :=
  ∃ e, o = .error (.fault e) ∧ ∀ expected t, e ≠ .unexpectedToken expected t

/-- Some tokens complete the given ones to a phrase. -/
def Begins {α : Type} (phrase : List Token → α → Prop) (ts : List Token) : Prop :=
  ∃ us a, phrase (ts ++ us) a

section Outcomes

variable {α β : Type}

@[simp] theorem not_runsOut_ok (a : α) : ¬ RunsOut (.ok a : Outcome α) := by
  rintro ⟨_, ⟨⟩, _⟩

@[simp] theorem not_runsOut_outOfFuel : ¬ RunsOut (.error .outOfFuel : Outcome α) := by
  rintro ⟨_, ⟨⟩, _⟩

@[simp] theorem not_runsOut_refuse (expected : Expected) (t : Token) :
    ¬ RunsOut (refuse expected t : Outcome (Phrase α)) := by
  rintro ⟨_, ⟨⟩, hNot⟩
  exact hNot expected t rfl

@[simp] theorem not_runsOut_done (a : α) (ts : List Token) : ¬ RunsOut (done a ts) :=
  not_runsOut_ok _

theorem runsOut_andThen {p : Reader α} {f : α → Reader β} {ts : List Token} :
    RunsOut (andThen p f ts) ↔
      RunsOut (p ts) ∨ ∃ a rest, p ts = .ok (a, rest) ∧ RunsOut (f a rest) := by
  unfold andThen
  cases p ts with
  | error h => simp [RunsOut, bind, Except.bind]
  | ok x =>
    obtain ⟨a, rest⟩ := x
    simp [bind, Except.bind]

theorem runsOut_takeMark {fin : Ending} {mark : Char} {ts : List Token}
    (h : RunsOut (takeMark fin mark ts)) : ts = [] := by
  cases ts with
  | nil => rfl
  | cons t ts =>
    rw [takeMark] at h
    split at h <;> simp at h

theorem runsOut_takeName {fin : Ending} {ts : List Token} (h : RunsOut (takeName fin ts)) :
    ts = [] := by
  cases ts with
  | nil => rfl
  | cons t ts =>
    rw [takeName] at h
    split at h <;> simp at h

theorem runsOut_readBridge {fin : Ending} {ts : List Token} (h : RunsOut (readBridge fin ts)) :
    ts = [] := by
  cases ts with
  | nil => rfl
  | cons t ts =>
    rw [readBridge, takeKeyword] at h
    split at h
    · exact absurd h (not_runsOut_ok _)
    · split at h <;> simp at h

end Outcomes

-- ----------------------------------------------------------------------------
-- Completing phrases
-- ----------------------------------------------------------------------------

/-- A token of the given kind. -/
def Token.any (kind : TokenKind) : Token :=
  ⟨kind, .start⟩

theorem begins_name : Begins Name [] :=
  ⟨[.any (.name "x")], "x", _, rfl, rfl⟩

theorem begins_primary : Begins Primary [] :=
  ⟨[.any (.name "x")], .var "x", .leaf rfl⟩

theorem begins_operand : Begins Operand [] := by
  obtain ⟨us, n, hPrimary⟩ := begins_primary
  exact ⟨us, n, .primary hPrimary⟩

theorem Grammar.Operand.expression {ts : List Token} {n : Node} (h : Operand ts n) :
    Expression ts n := by
  have hChain := Expression.chain h .nil (.operand n)
  rwa [List.append_nil] at hChain

theorem begins_expression : Begins Expression [] := by
  obtain ⟨us, n, hOperand⟩ := begins_operand
  exact ⟨us, n, hOperand.expression⟩

/-- Every chain can be grouped, to the right for example. -/
theorem exists_grouping (first : Node) (rest : List (ChainOp × Node)) :
    ∃ n, Grouping first rest n := by
  induction rest generalizing first with
  | nil => exact ⟨first, .operand first⟩
  | cons x rest ih =>
    obtain ⟨op, next⟩ := x
    obtain ⟨right, hRight⟩ := ih next
    exact ⟨op.join first right, .join (.operand first) hRight⟩

/-- A list that was begun, and its closing mark. -/
theorem readItems_begins {α : Type} {fin : Ending} {item : Reader α}
    {phrase : List Token → α → Prop} {separator stop : Char}
    (hSound : ∀ {ts a rest}, item ts = .ok (a, rest) → ∃ taken, ts = taken ++ rest ∧ phrase taken a)
    (hItem : ∀ {ts}, RunsOut (item ts) → Begins phrase ts)
    {fuel : Nat} {first : Bool} {ts : List Token}
    (h : RunsOut (readItems fin item separator stop fuel first ts)) :
    if first then Begins (Listed phrase separator) ts
    else Begins (Continued phrase separator) ts := by
  induction fuel generalizing first ts with
  | zero => exact absurd h not_runsOut_outOfFuel
  | succ fuel ih =>
    have hMore : ∀ {us}, RunsOut (itemThenMore fin item separator stop fuel us) →
        Begins (Listed phrase separator) us := by
      intro us hRun
      rcases runsOut_andThen.mp hRun with hFirst | ⟨a, rest, hRead, hRest⟩
      · obtain ⟨vs, a, hPhrase⟩ := hItem hFirst
        exact ⟨vs, [a], .last hPhrase⟩
      · obtain ⟨taken, rfl, hPhrase⟩ := hSound hRead
        rcases runsOut_andThen.mp hRest with hTail | ⟨as, rest, -, hDone⟩
        · obtain ⟨vs, as, hContinued⟩ := ih hTail
          refine ⟨vs, a :: as, ?_⟩
          rw [List.append_assoc]
          exact .of_item hPhrase hContinued
        · exact absurd hDone (not_runsOut_done _ _)
    have hFront : ∀ {us}, RunsOut (look (itemThenMore fin item separator stop fuel [])
        (itemMove fin item separator stop fuel) us) → Begins (Listed phrase separator) us := by
      intro us hRun
      cases us with
      | nil => exact hMore hRun
      | cons t us =>
        rw [look, itemMove] at hRun
        split at hRun
        · exact absurd hRun (not_runsOut_done _ _)
        · exact hMore hRun
    cases first with
    | true =>
      rw [readItems_first_eq] at h
      cases ts with
      | nil => exact ⟨[], [], .nil⟩
      | cons t ts => exact hFront h
    | false =>
      rw [readItems_more_eq] at h
      cases ts with
      | nil => exact ⟨[], [], Or.inl ⟨rfl, rfl⟩⟩
      | cons t ts =>
        rw [look, separatorMove] at h
        split at h
        · exact absurd h (not_runsOut_done _ _)
        split at h
        · rename_i hMark
          obtain ⟨us, as, hListed⟩ := hFront h
          exact ⟨us, as, Or.inr ⟨t, ts ++ us, rfl, Token.isMark_iff.mp hMark, hListed⟩⟩
        · exact absurd h (not_runsOut_refuse _ _)

-- ----------------------------------------------------------------------------
-- The readers
-- ----------------------------------------------------------------------------

/-- What every reader has read when the tokens run out begins a phrase. -/
structure Unfinished (fin : Ending) (fuel : Nat) : Prop where
  expression : ∀ {ts}, RunsOut (readExpression fin fuel ts) → Begins Expression ts
  chain : ∀ {threshold left ts}, nextIs '(' ts = false →
    RunsOut (readChain fin fuel threshold left ts) → Begins (Tail Operand) ts
  arguments : ∀ {callee ts us}, Operand us callee →
    RunsOut (readArguments fin fuel callee ts) → Begins Operand (us ++ ts)
  operand : ∀ {ts}, RunsOut (readOperand fin fuel ts) → Begins Operand ts
  atom : ∀ {ts}, RunsOut (readAtomAt fin fuel ts) → Begins Primary ts
  conditional : ∀ {k ts}, k.kind = .keyword .yeli →
    RunsOut (readConditional fin fuel ts) → Begins Primary (k :: ts)
  function : ∀ {k ts}, k.OpensFunction →
    RunsOut (readFunction fin fuel ts) → Begins Primary (k :: ts)

section Step

variable {fin : Ending} {fuel : Nat}

/-- A reader of argument lists stops where no list follows. -/
theorem nextIs_of_runsOut_arguments {callee : Node} {ts : List Token}
    (h : RunsOut (readArguments fin fuel callee ts)) : ts = [] ∨ nextIs '(' ts = true := by
  cases fuel with
  | zero => exact absurd h not_runsOut_outOfFuel
  | succ fuel =>
    rw [readArguments_eq] at h
    cases ts with
    | nil => exact Or.inl rfl
    | cons t ts =>
      rw [look, argumentsMove] at h
      split at h
      · exact Or.inr ‹_›
      · exact absurd h (not_runsOut_done _ _)

theorem Unfinished.expression_succ (h : Unfinished fin fuel) {ts : List Token}
    (hRun : RunsOut (readExpression fin (fuel + 1) ts)) : Begins Expression ts := by
  have hSound := sound_readers fin fuel
  rw [readExpression_eq, runsOut_andThen] at hRun
  rcases hRun with hRun | ⟨first, us, hRead, hRun⟩
  · obtain ⟨vs, n, hOperand⟩ := h.operand hRun
    exact ⟨vs, n, hOperand.expression⟩
  obtain ⟨head, rfl, hOperand, hNext⟩ := hSound.operand hRead
  rw [runsOut_andThen] at hRun
  rcases hRun with hRun | ⟨chain, rest, hRead, hRun⟩
  · obtain ⟨vs, xs, hTail⟩ := h.chain hNext hRun
    obtain ⟨n, hTree⟩ := exists_grouping first xs
    refine ⟨vs, n, ?_⟩
    rw [List.append_assoc]
    exact .chain hOperand hTail hTree
  · -- no argument list follows a chain
    obtain ⟨tail, xs, rfl, hTail, hTree, hStops⟩ := hSound.chain hNext hRead
    rcases nextIs_of_runsOut_arguments hRun with rfl | hOpen
    · exact ⟨[], chain, by simpa using Expression.chain hOperand hTail hTree⟩
    · rw [hStops.noArguments] at hOpen
      cases hOpen

theorem Unfinished.chain_succ (h : Unfinished fin fuel) {threshold : Nat} {left : Node}
    {ts : List Token} (hRun : RunsOut (readChain fin (fuel + 1) threshold left ts)) :
    Begins (Tail Operand) ts := by
  have hSound := sound_readers fin fuel
  rw [readChain_eq] at hRun
  cases ts with
  | nil => exact ⟨[], [], .nil⟩
  | cons t ts =>
    rw [look, chainMove] at hRun
    split at hRun
    · exact absurd hRun (not_runsOut_done _ _)
    rename_i op hOp
    split at hRun
    · exact absurd hRun (not_runsOut_done _ _)
    rw [Move.go, runsOut_andThen] at hRun
    rcases hRun with hRun | ⟨next, us, hRead, hRun⟩
    · obtain ⟨vs, n, hOperand⟩ := h.operand hRun
      refine ⟨vs, [(op, n)], ?_⟩
      have hTail := Tail.cons hOp hOperand .nil
      rwa [List.append_nil] at hTail
    obtain ⟨head, rfl, hOperand, hNext⟩ := hSound.operand hRead
    rw [runsOut_andThen] at hRun
    rcases hRun with hRun | ⟨right, us, hRead, hRun⟩
    · obtain ⟨vs, xs, hInner⟩ := h.chain hNext hRun
      refine ⟨vs, (op, next) :: xs, ?_⟩
      have hTail := Tail.cons hOp hOperand hInner
      simpa using hTail
    · obtain ⟨inner, xs, rfl, hInner, -, hStops⟩ := hSound.chain hNext hRead
      obtain ⟨vs, ys, hOuter⟩ := h.chain hStops.noArguments hRun
      refine ⟨vs, (op, next) :: (xs ++ ys), ?_⟩
      have hTail := Tail.cons hOp hOperand (hInner.append hOuter)
      simpa using hTail

theorem Unfinished.listed (h : Unfinished fin fuel) {separator stop : Char} {ts : List Token}
    (hRun : RunsOut (readItems fin (readExpression fin fuel) separator stop fuel true ts)) :
    Begins (Listed Expression separator) ts :=
  readItems_begins (sound_readers fin fuel).item h.expression hRun

theorem Unfinished.arguments_succ (h : Unfinished fin fuel) {callee : Node} {ts us : List Token}
    (hCallee : Operand us callee) (hRun : RunsOut (readArguments fin (fuel + 1) callee ts)) :
    Begins Operand (us ++ ts) := by
  rw [readArguments_eq] at hRun
  cases ts with
  | nil => exact ⟨[], callee, by simpa using hCallee⟩
  | cons o ts =>
    rw [look, argumentsMove] at hRun
    split at hRun
    · rename_i hOpen
      have hCall : ∀ {vs args} (c : Token), c.kind = .punctuation ')' →
          Listed Expression ',' vs args →
          Operand (us ++ o :: (vs ++ [c])) (.call callee args) := fun c hClose hArgs =>
        .call hCallee (Token.isMark_iff.mp hOpen) hArgs hClose
      rw [Move.go, runsOut_andThen] at hRun
      rcases hRun with hRun | ⟨args, rest, hRead, hRun⟩
      · obtain ⟨vs, args, hArgs⟩ := h.listed hRun
        have hDone := hCall (.any (.punctuation ')')) rfl hArgs
        exact ⟨vs ++ [.any (.punctuation ')')], _, by simpa using hDone⟩
      · obtain ⟨inner, c, rfl, hClose, hArgs⟩ :=
          readItems_sound (sound_readers fin fuel).item hRead
        obtain ⟨vs, n, hMore⟩ := h.arguments (hCall c hClose hArgs) hRun
        exact ⟨vs, n, by simpa using hMore⟩
    · exact absurd hRun (not_runsOut_done _ _)

theorem Unfinished.operand_succ (h : Unfinished fin fuel) {ts : List Token}
    (hRun : RunsOut (readOperand fin (fuel + 1) ts)) : Begins Operand ts := by
  rw [readOperand_eq, runsOut_andThen] at hRun
  rcases hRun with hRun | ⟨atom, rest, hRead, hRun⟩
  · obtain ⟨vs, n, hPrimary⟩ := h.atom hRun
    exact ⟨vs, n, .primary hPrimary⟩
  · cases ts with
    | nil => cases hRead
    | cons t ts =>
      obtain ⟨taken, rfl, hPrimary⟩ := (sound_readers fin fuel).atom hRead
      exact h.arguments (.primary hPrimary) hRun

theorem Unfinished.atom_succ (h : Unfinished fin fuel) {ts : List Token}
    (hRun : RunsOut (readAtomAt fin (fuel + 1) ts)) : Begins Primary ts := by
  rw [readAtomAt_eq] at hRun
  cases ts with
  | nil => exact begins_primary
  | cons o ts =>
    rw [look, atomMove] at hRun
    split at hRun
    · -- a group
      rename_i hOpen
      rw [Move.go, runsOut_andThen] at hRun
      rcases hRun with hRun | ⟨inner, rest, hRead, hRun⟩
      · obtain ⟨vs, n, hInner⟩ := h.expression hRun
        have hGroup := Primary.group (c := .any (.punctuation ')')) hOpen hInner rfl
        exact ⟨vs ++ [.any (.punctuation ')')], n, by simpa using hGroup⟩
      · obtain ⟨taken, rfl, hInner⟩ := (sound_readers fin fuel).item hRead
        rw [runsOut_andThen] at hRun
        rcases hRun with hRun | ⟨_, _, -, hRun⟩
        · obtain rfl := runsOut_takeMark hRun
          have hGroup := Primary.group (c := .any (.punctuation ')')) hOpen hInner rfl
          exact ⟨[.any (.punctuation ')')], inner, by simpa using hGroup⟩
        · exact absurd hRun (not_runsOut_done _ _)
    · -- a block
      rename_i hOpen
      rw [Move.go, runsOut_andThen] at hRun
      rcases hRun with hRun | ⟨_, _, -, hRun⟩
      · obtain ⟨vs, body, hBody⟩ := h.listed hRun
        have hBlock := Primary.block (c := .any (.punctuation '}')) hOpen hBody rfl
        exact ⟨vs ++ [.any (.punctuation '}')], _, by simpa using hBlock⟩
      · exact absurd hRun (not_runsOut_done _ _)
    · exact h.conditional ‹_› hRun
    · exact h.function (Or.inl ‹_›) hRun
    · exact h.function (Or.inr ‹_›) hRun
    -- a leaf takes one token, and any other token is refused
    all_goals first
      | exact absurd hRun (not_runsOut_done _ _)
      | exact absurd hRun (not_runsOut_refuse _ _)

theorem Unfinished.otherwise (h : Unfinished fin fuel) {test yes : Node} {ts : List Token}
    (hRun : RunsOut (readOtherwise fin fuel test yes ts)) :
    Begins (Otherwise Expression) ts := by
  rw [readOtherwise_eq] at hRun
  cases ts with
  | nil => exact ⟨[], none, .absent⟩
  | cons t ts =>
    rw [look, otherwiseMove] at hRun
    split at hRun
    · rename_i hNate
      rw [Move.go, runsOut_andThen] at hRun
      rcases hRun with hRun | ⟨_, _, -, hRun⟩
      · obtain ⟨vs, no, hNo⟩ := h.expression hRun
        exact ⟨vs, some no, .present (Token.isKeyword_iff.mp hNate) hNo⟩
      · exact absurd hRun (not_runsOut_done _ _)
    · exact absurd hRun (not_runsOut_done _ _)

theorem Unfinished.conditional_succ (h : Unfinished fin fuel) {k : Token} {ts : List Token}
    (hWord : k.kind = .keyword .yeli) (hRun : RunsOut (readConditional fin (fuel + 1) ts)) :
    Begins Primary (k :: ts) := by
  have hSound := sound_readers fin fuel
  obtain ⟨branch, n, hBranch⟩ := begins_expression
  rw [List.nil_append] at hBranch
  have hTeli : Bridge [.any (.keyword .teli)] branch := Or.inl ⟨_, rfl, rfl⟩
  rw [readConditional_eq, runsOut_andThen] at hRun
  rcases hRun with hRun | ⟨test, us, hRead, hRun⟩
  · -- within the test
    obtain ⟨vs, test, hTest⟩ := h.expression hRun
    have hDone := Primary.conditional hWord hTest hTeli hBranch .absent
    exact ⟨vs ++ .any (.keyword .teli) :: branch, _, by simpa using hDone⟩
  obtain ⟨tested, rfl, hTest⟩ := hSound.item hRead
  rw [runsOut_andThen] at hRun
  rcases hRun with hRun | ⟨_, us, hRead, hRun⟩
  · -- behind the test
    obtain rfl := runsOut_readBridge hRun
    have hDone := Primary.conditional hWord hTest hTeli hBranch .absent
    exact ⟨.any (.keyword .teli) :: branch, _, by simpa using hDone⟩
  obtain ⟨ws, rfl, hBridge⟩ := readBridge_sound hRead
  rw [runsOut_andThen] at hRun
  rcases hRun with hRun | ⟨yes, us, hRead, hRun⟩
  · -- within the first branch
    obtain ⟨vs, yes, hYes⟩ := h.expression hRun
    have hDone := Primary.conditional hWord hTest (hBridge.append vs) hYes .absent
    exact ⟨vs, _, by simpa using hDone⟩
  · -- within the second branch
    obtain ⟨first, rfl, hYes⟩ := hSound.item hRead
    obtain ⟨vs, no, hNo⟩ := h.otherwise hRun
    have hOpening : Bridge ws first := by
      rcases hBridge with hTeli | ⟨rfl, hBrace⟩
      · exact Or.inl hTeli
      · obtain ⟨t, _, rfl, -⟩ := hYes.opens
        exact Or.inr ⟨rfl, hBrace⟩
    have hDone := Primary.conditional hWord hTest hOpening hYes hNo
    exact ⟨vs, _, by simpa using hDone⟩

theorem Unfinished.function_succ (h : Unfinished fin fuel) {k : Token} {ts : List Token}
    (hWord : k.OpensFunction) (hRun : RunsOut (readFunction fin (fuel + 1) ts)) :
    Begins Primary (k :: ts) := by
  obtain ⟨inner, n, hInner⟩ := begins_expression
  rw [List.nil_append] at hInner
  rw [readFunction_eq, runsOut_andThen] at hRun
  rcases hRun with hRun | ⟨_, us, hRead, hRun⟩
  · obtain rfl := runsOut_takeMark hRun
    have hDone := Primary.function (o := .any (.punctuation '(')) (c := .any (.punctuation ')'))
      hWord rfl .nil rfl hInner
    exact ⟨.any (.punctuation '(') :: .any (.punctuation ')') :: inner, _, hDone⟩
  obtain ⟨o, rfl, hOpen⟩ := takeMark_eq_ok.mp hRead
  rw [runsOut_andThen] at hRun
  rcases hRun with hRun | ⟨params, us, hRead, hRun⟩
  · have hNames : Begins (Listed Name ',') us := by
      refine readItems_begins takeName_sound ?_ hRun
      intro ts hName
      rw [runsOut_takeName hName]
      exact begins_name
    obtain ⟨vs, params, hParams⟩ := hNames
    have hDone := Primary.function (c := .any (.punctuation ')')) hWord hOpen hParams rfl hInner
    exact ⟨vs ++ .any (.punctuation ')') :: inner, _, by simpa using hDone⟩
  obtain ⟨names, c, rfl, hClose, hParams⟩ := readItems_sound takeName_sound hRead
  rw [runsOut_andThen] at hRun
  rcases hRun with hRun | ⟨_, _, -, hRun⟩
  · obtain ⟨vs, body, hBody⟩ := h.expression hRun
    have hDone := Primary.function hWord hOpen hParams hClose hBody
    exact ⟨vs, _, by simpa using hDone⟩
  · exact absurd hRun (not_runsOut_done _ _)

theorem unfinished_succ (h : Unfinished fin fuel) : Unfinished fin (fuel + 1) where
  expression := h.expression_succ
  chain _ := h.chain_succ
  arguments := h.arguments_succ
  operand := h.operand_succ
  atom := h.atom_succ
  conditional := h.conditional_succ
  function := h.function_succ

end Step

/-- **Readers that run out of tokens have read the beginning of a phrase.** -/
theorem unfinished_readers (fin : Ending) (fuel : Nat) : Unfinished fin fuel := by
  induction fuel with
  | succ fuel ih => exact unfinished_succ ih
  | zero =>
    refine ⟨?_, ?_, ?_, ?_, ?_, ?_, ?_⟩
    case refine_5 =>
      intro ts hRun
      cases ts with
      | nil => exact begins_primary
      | cons t ts => exact absurd hRun not_runsOut_outOfFuel
    all_goals
      intros
      exact absurd ‹RunsOut _› not_runsOut_outOfFuel

theorem readProgram_begins {fin : Ending} {fuel : Nat} {ts : List Token}
    (h : RunsOut (readProgram fin fuel ts)) : Begins (Listed Expression ';') ts := by
  induction fuel generalizing ts with
  | zero => exact absurd h not_runsOut_outOfFuel
  | succ fuel ih =>
    rw [readProgram_eq] at h
    cases ts with
    | nil => exact ⟨[], [], .nil⟩
    | cons t ts =>
      rw [look, Move.go, runsOut_andThen] at h
      rcases h with hRun | ⟨x, rest, hRead, hRun⟩
      · obtain ⟨vs, x, hExpression⟩ := (unfinished_readers fin fuel).expression hRun
        exact ⟨vs, [x], .last hExpression⟩
      · obtain ⟨taken, hEq, hExpression⟩ := (sound_readers fin fuel).item hRead
        rw [hEq]
        cases rest with
        | nil => exact ⟨[], [x], by simpa using Listed.last hExpression⟩
        | cons s rest =>
          rw [look, programMove] at hRun
          split at hRun
          · rename_i hMark
            rw [Move.go, runsOut_andThen] at hRun
            rcases hRun with hRun | ⟨_, _, -, hRun⟩
            · obtain ⟨vs, xs, hRest⟩ := ih hRun
              have hListed := Listed.cons hExpression (Token.isMark_iff.mp hMark) hRest
              exact ⟨vs, x :: xs, by simpa using hListed⟩
            · exact absurd hRun (not_runsOut_done _ _)
          · exact absurd hRun (not_runsOut_refuse _ _)

-- ----------------------------------------------------------------------------
-- Whole texts
-- ----------------------------------------------------------------------------

/-- Some tokens complete the given ones to a program. -/
def Viable (ts : List Token) : Prop :=
  ∃ us p n, (Scan.mk (ts ++ us) (.finished p)).parse = .ok n

theorem viable_of_begins {ts : List Token} (h : Begins (Listed Expression ';') ts) :
    Viable ts := by
  obtain ⟨us, xs, hListed⟩ := h
  have hFuel : 4 * (ts ++ us).length + 5 ≤ parseFuel (ts ++ us).length := by
    unfold parseFuel
    omega
  obtain ⟨ys, hRead⟩ := @readProgram_complete .start _ _ hListed _ hFuel
  exact ⟨us, .start, .program ys, by rw [Scan.parse, hRead]⟩

/-- The fuel of `Scan.parse` suffices. -/
theorem Scan.read_ne_outOfFuel (s : Scan) :
    readProgram s.ending (parseFuel s.tokens.length) s.tokens ≠ .error .outOfFuel := by
  have hFuel : 4 * s.tokens.length + 5 ≤ parseFuel s.tokens.length := by
    unfold parseFuel
    omega
  have hSated : Sated s.tokens.length (readProgram s.ending (parseFuel s.tokens.length)) :=
    readProgram_sated hFuel
  intro hRead
  have hLasting := hSated s.tokens (Nat.le_refl _)
  rw [hRead] at hLasting
  exact hLasting rfl

theorem Scan.parse_eq_error_iff {s : Scan} {e : ParseError} : s.parse = .error e ↔
    readProgram s.ending (parseFuel s.tokens.length) s.tokens = .error (.fault e) := by
  have hFuel := s.read_ne_outOfFuel
  unfold Scan.parse
  split
  · rename_i hRead
    rw [hRead]
    simp
  · rename_i hRead
    rw [hRead]
    simp
  · rename_i hRead
    exact absurd hRead hFuel

/-- What a scan is refused for, every scan of the same kinds up to there is refused for. -/
theorem Scan.refused_alike {s s' : Scan} (hNodup : s.tokens.Nodup) {expected : Expected}
    {found found' : Token} {before rest before' rest' : List Token}
    (hParse : s.parse = .error (.unexpectedToken expected found))
    (hTokens : s.tokens = before ++ found :: rest)
    (hTokens' : s'.tokens = before' ++ found' :: rest')
    (hKinds : SameKinds before' before) (hKind : found'.kind = found.kind) :
    s'.parse = .error (.unexpectedToken expected found') := by
  rw [Scan.parse_eq_error_iff] at hParse ⊢
  obtain ⟨us, vs, hSplit, -, hAgain⟩ :=
    readProgram_foresees s.ending s'.ending _ (parseFuel s'.tokens.length)
      s.tokens (.refusal expected) found rest hParse
  obtain rfl : before = us := by
    rw [hTokens] at hSplit hNodup
    have hOnce : found ∉ before ∧ found ∉ rest := by
      obtain ⟨-, hRest, hApart⟩ := List.nodup_append.mp hNodup
      refine ⟨fun hMem => hApart found hMem found List.mem_cons_self rfl, ?_⟩
      exact (List.nodup_cons.mp hRest).1
    exact ((List.append_cons_inj_of_notMem hOnce.1 hOnce.2).mp hSplit).1
  rcases hAgain before' found' rest' hKinds hKind with hRead | hRead
  · rw [← hTokens'] at hRead
    exact hRead
  · rw [← hTokens'] at hRead
    exact absurd hRead s'.read_ne_outOfFuel

theorem Scan.exists_refused {s : Scan} {expected : Expected} {found : Token}
    (hParse : s.parse = .error (.unexpectedToken expected found)) :
    ∃ before rest, s.tokens = before ++ found :: rest := by
  obtain ⟨before, rest, hTokens, -⟩ := readProgram_foresees s.ending s.ending _ 0 s.tokens
    (.refusal expected) found [] (Scan.parse_eq_error_iff.mp hParse)
  exact ⟨before, rest, hTokens⟩

theorem Scan.viable_of_runsOut {s : Scan} {e : ParseError} (hParse : s.parse = .error e)
    (hEnd : ∀ expected t, e ≠ .unexpectedToken expected t) : Viable s.tokens :=
  viable_of_begins (readProgram_begins ⟨e, Scan.parse_eq_error_iff.mp hParse, hEnd⟩)

/-- The tokens before a refused one are refused at none of them. -/
theorem Scan.viable_before {s : Scan} (hNodup : s.tokens.Nodup) {expected : Expected}
    {found : Token} {before rest : List Token}
    (hParse : s.parse = .error (.unexpectedToken expected found))
    (hTokens : s.tokens = before ++ found :: rest) : Viable before := by
  rw [hTokens] at hNodup
  obtain ⟨hBefore, -, hApart⟩ := List.nodup_append.mp hNodup
  cases hRead : (Scan.mk before (.finished .start)).parse with
  | ok n =>
    refine ⟨[], .start, n, ?_⟩
    rw [List.append_nil]
    exact hRead
  | error e =>
    refine Scan.viable_of_runsOut hRead ?_
    rintro expected' earlier rfl
    -- the same token would be refused in front of the rest
    obtain ⟨us, vs, hSplit⟩ := Scan.exists_refused hRead
    have hAll : s.tokens = us ++ earlier :: (vs ++ found :: rest) := by
      have hFront : before = us ++ earlier :: vs := hSplit
      rw [hTokens, hFront]
      simp
    have hAgain := Scan.refused_alike hBefore hRead hSplit hAll rfl rfl
    rw [hParse] at hAgain
    have hSame : found = earlier := by
      injection hAgain with hAgain
      injection hAgain
    have hMem : earlier ∈ before := by
      have hFront : before = us ++ earlier :: vs := hSplit
      simp [hFront]
    exact hApart earlier hMem found List.mem_cons_self hSame.symm

/-- Tokens of the same kinds up to `found` have a token of that kind at its place. -/
theorem SameKinds.split_at {ts before : List Token} {found : Token}
    (h : SameKinds (ts.take (before.length + 1)) (before ++ [found])) :
    ∃ before' found' rest', ts = before' ++ found' :: rest' ∧ SameKinds before' before ∧
      found'.kind = found.kind ∧ ts[before.length]? = some found' := by
  obtain ⟨before', last, hSplit, hBefore, hLast⟩ := h.split
  obtain ⟨found', none, rfl, hKind, hNone⟩ := hLast.uncons
  obtain rfl := hNone.eq_nil
  have hTokens : ts = before' ++ found' :: ts.drop (before.length + 1) := by
    rw [← List.singleton_append, ← List.append_assoc, ← hSplit, List.take_append_drop]
  have hLength : before'.length = before.length := by
    have hMap := congrArg List.length hBefore
    simpa using hMap
  refine ⟨before', found', _, hTokens, hBefore, hKind, ?_⟩
  rw [hTokens, ← hLength]
  simp

/--
**Syntax errors are found at the earliest token.** If a token is refused, it
is a token of the text, the tokens before it are the beginning of a program,
and with it they are not: every list of tokens of the same kinds up to there,
whatever follows and however the text ends, is refused at the same place with
the same expectation. If a text ends too early, all its tokens are the
beginning of a program.
-/
theorem syntax_errors_are_earliest (source : String) :
    (∀ expected found, parse source = .error (.unexpectedToken expected found) →
      ∃ k, (∀ j, (scan source).tokens[j]? = some found ↔ j = k) ∧
        Viable ((scan source).tokens.take k) ∧ ¬ Viable ((scan source).tokens.take (k + 1)) ∧
        ∀ s : Scan, SameKinds (s.tokens.take (k + 1)) ((scan source).tokens.take (k + 1)) →
          ∃ found', s.tokens[k]? = some found' ∧ found'.kind = found.kind ∧
            s.parse = .error (.unexpectedToken expected found')) ∧
    ∀ expected p, parse source = .error (.prematureEnd expected p) →
      Viable (scan source).tokens := by
  have hNodup := scan_nodup source
  refine ⟨?_, ?_⟩
  · intro expected found hParse
    obtain ⟨before, rest, hTokens⟩ := Scan.exists_refused hParse
    have hAt : (scan source).tokens[before.length]? = some found := by
      rw [hTokens]
      simp
    have hTake : (scan source).tokens.take (before.length + 1) = before ++ [found] := by
      rw [List.take_add_one, hAt, hTokens, List.take_left]
      rfl
    have hAlike : ∀ s : Scan, SameKinds (s.tokens.take (before.length + 1)) (before ++ [found]) →
        ∃ found', s.tokens[before.length]? = some found' ∧ found'.kind = found.kind ∧
          s.parse = .error (.unexpectedToken expected found') := by
      intro s hKinds
      obtain ⟨before', found', rest', hTokens', hBefore, hKind, hAt'⟩ := hKinds.split_at
      exact ⟨found', hAt', hKind, Scan.refused_alike hNodup hParse hTokens hTokens' hBefore hKind⟩
    refine ⟨before.length, ?_, ?_, ?_, ?_⟩
    · intro j
      constructor
      · intro hj
        have hLt : before.length < (scan source).tokens.length := by simp [hTokens]
        exact ((List.getElem?_inj hLt hNodup).mp (hAt.trans hj.symm)).symm
      · rintro rfl
        exact hAt
    · rw [hTokens, List.take_left]
      exact Scan.viable_before hNodup hParse hTokens
    · rw [hTake]
      rintro ⟨us, p, n, hAccepted⟩
      have hFront : (before ++ [found] ++ us).take (before.length + 1) = before ++ [found] := by
        rw [← List.length_singleton (a := found), ← List.length_append, List.take_left]
      obtain ⟨found', -, -, hRefused⟩ :=
        hAlike ⟨before ++ [found] ++ us, .finished p⟩ (congrArg _ hFront)
      rw [hAccepted] at hRefused
      cases hRefused
    · rw [hTake]
      exact hAlike
  · intro expected p hParse
    refine Scan.viable_of_runsOut hParse ?_
    rintro _ _ ⟨⟩

/-- A second argument without a comma is refused, and an open list of arguments ends too early. -/
theorem syntax_errors_are_earliest_openCall :
    parse "f(a b" = .error (.unexpectedToken (.punctuation ',') ⟨.name "b", ⟨1, 4⟩⟩) ∧
      parse "f(a" = .error (.prematureEnd (.punctuation ')') ⟨1, 3⟩) ∧
      (∃ k, Viable ((scan "f(a b").tokens.take k) ∧ ¬ Viable ((scan "f(a b").tokens.take (k + 1))) ∧
      Viable (scan "f(a").tokens := by
  have hRefused : parse "f(a b" =
      .error (.unexpectedToken (.punctuation ',') ⟨.name "b", ⟨1, 4⟩⟩) := rfl
  have hEnded : parse "f(a" = .error (.prematureEnd (.punctuation ')') ⟨1, 3⟩) := rfl
  obtain ⟨k, -, hViable, hNot, -⟩ := (syntax_errors_are_earliest "f(a b").1 _ _ hRefused
  exact ⟨hRefused, hEnded, ⟨k, hViable, hNot⟩, (syntax_errors_are_earliest "f(a").2 _ _ hEnded⟩

end Zaban
