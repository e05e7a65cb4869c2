import Zaban.Proofs.Grammar.ErrorOrigin
import Zaban.Proofs.Grammar.Placeless

/-!
# Reading always moves on

No reader gives tokens back: what it leaves is the end of what it was given
(`Built.forward`). A reader of operands or expressions takes at least one token
(`readOperand_consuming`, `readExpression_consuming`).

Four readers are **loops**. Each is the repetition of one **round**, which
either leaves the loop or goes on with a new state in front of the tokens that
are left. `chainRound`, `argumentsRound`, `itemsRound` and `programRound` are
the rounds, an equation for each says that the reader is their repetition, and a
round that goes on has taken a token (`Round.Advances`). It is the same with
trivia, whose rounds take white space and a comment (`triviaRound`).

So reading comes to an end, with a recursion no deeper than a multiple of the
number of tokens. Beyond that, the fuel has no influence: with any amount that
suffices, the outcome is the same (`readProgram_fuel_eq`).
-/

namespace Zaban

open Reader

-- ----------------------------------------------------------------------------
-- Forward
-- ----------------------------------------------------------------------------

/-- What the reader leaves is the end of what it was given. -/
def Forward {α : Type} (p : Reader α) : Prop :=
  ∀ ts a rest, p ts = .ok (a, rest) → ∃ taken, ts = taken ++ rest

/-- The reader takes a token whenever it gives a phrase. -/
def Consuming {α : Type} (p : Reader α) : Prop :=
  ∀ ts a rest, p ts = .ok (a, rest) → ∃ taken, taken ≠ [] ∧ ts = taken ++ rest

section Forward

variable {α : Type} {fin : Ending} {fuel : Nat} {p : Reader α}

theorem Consuming.forward (h : Consuming p) : Forward p := by
  intro ts a rest hRead
  obtain ⟨taken, -, hEq⟩ := h ts a rest hRead
  exact ⟨taken, hEq⟩

/-- **No reader gives tokens back.** -/
theorem Built.forward (h : Built fin p) : Forward p := by
  induction h with
  | cut => rintro _ _ _ ⟨⟩
  | missing => rintro _ _ _ ⟨⟩
  | close a =>
    intro ts b rest hRead
    obtain ⟨-, -, rfl⟩ := close_eq_ok.mp hRead
    exact ⟨ts, (List.append_nil ts).symm⟩
  | done a =>
    intro ts b rest hRead
    obtain ⟨-, rfl⟩ := Prod.mk.inj (Except.ok.inj hRead)
    exact ⟨[], rfl⟩
  | andThen _ _ ihp ihf =>
    intro ts b rest hRead
    simp only [Reader.andThen, bind_eq_ok, Prod.exists] at hRead
    obtain ⟨a, us, hFirst, hNext⟩ := hRead
    obtain ⟨first, rfl⟩ := ihp ts a us hFirst
    obtain ⟨second, rfl⟩ := ihf a us b rest hNext
    exact ⟨first ++ second, (List.append_assoc _ _ _).symm⟩
  | @look _ p move _ _ ihEnd ihMove =>
    intro ts b rest hRead
    cases ts with
    | nil => exact ihEnd [] b rest hRead
    | cons t ts =>
      rw [Reader.look] at hRead
      have hNext := ihMove t
      generalize move t = m at hRead hNext
      cases m with
      | keep next => exact hNext next rfl (t :: ts) b rest hRead
      | take next =>
        obtain ⟨taken, rfl⟩ := hNext next rfl ts b rest hRead
        exact ⟨t :: taken, rfl⟩
      | refuse expected => cases hRead

theorem takeKeyword_consuming (word : Keyword) : Consuming (takeKeyword fin word) := by
  intro ts u rest hRead
  obtain ⟨t, rfl, -⟩ := takeKeyword_eq_ok.mp hRead
  exact ⟨[t], List.cons_ne_nil t [], rfl⟩

theorem takeName_consuming : Consuming (takeName fin) := by
  intro ts word rest hRead
  obtain ⟨t, rfl, -⟩ := takeName_eq_ok.mp hRead
  exact ⟨[t], List.cons_ne_nil t [], rfl⟩

theorem readOperand_consuming : Consuming (readOperand fin fuel) := by
  intro ts n rest hRead
  obtain ⟨taken, hEq, hOperand, -⟩ := (sound_readers fin fuel).operand hRead
  exact ⟨taken, hOperand.expression.ne_nil, hEq⟩

theorem readExpression_consuming : Consuming (readExpression fin fuel) := by
  intro ts n rest hRead
  obtain ⟨taken, hEq, hExpression⟩ := (sound_readers fin fuel).item hRead
  exact ⟨taken, hExpression.ne_nil, hEq⟩

/-- An atom takes its first token, which was looked at before. -/
theorem readAtom_forward (t : Token) : Forward (readAtom fin fuel t) := by
  intro ts n rest hRead
  obtain ⟨taken, hEq, -⟩ := (sound_readers fin fuel).atom hRead
  exact ⟨taken, hEq⟩

end Forward

/-- No reader gives tokens back. -/
structure Forwards (fin : Ending) (fuel : Nat) : Prop where
  mark        : ∀ mark, Forward (takeMark fin mark)
  keyword     : ∀ word, Forward (takeKeyword fin word)
  name        : Forward (takeName fin)
  items       : ∀ separator stop fuel' first,
    Forward (readItems fin (readExpression fin fuel) separator stop fuel' first)
  params      : ∀ separator stop first,
    Forward (readItems fin (takeName fin) separator stop fuel first)
  expression  : Forward (readExpression fin fuel)
  chain       : ∀ threshold left, Forward (readChain fin fuel threshold left)
  arguments   : ∀ callee, Forward (readArguments fin fuel callee)
  operand     : Forward (readOperand fin fuel)
  atom        : ∀ t, Forward (readAtom fin fuel t)
  conditional : Forward (readConditional fin fuel)
  function    : Forward (readFunction fin fuel)
  program     : Forward (readProgram fin fuel)

theorem forward_readers (fin : Ending) (fuel : Nat) : Forwards fin fuel :=
  have hBuilt := built_readers fin fuel
  { mark := fun mark => (takeMark_built mark).forward
    keyword := fun word => (takeKeyword_consuming word).forward
    name := takeName_consuming.forward
    items := fun _ _ fuel' first => (readItems_built hBuilt.expression fuel' first).forward
    params := fun _ _ first => (readItems_built takeName_built fuel first).forward
    expression := readExpression_consuming.forward
    chain := fun threshold left => (hBuilt.chain threshold left).forward
    arguments := fun callee => (hBuilt.arguments callee).forward
    operand := readOperand_consuming.forward
    atom := readAtom_forward
    conditional := hBuilt.conditional.forward
    function := hBuilt.function.forward
    program := (readProgram_built fin fuel).forward }

-- ----------------------------------------------------------------------------
-- Rounds
-- ----------------------------------------------------------------------------

/-- What one round of a loop comes to. -/
inductive Round (σ α : Type) where
  /-- The loop is left. -/
  | leave (outcome : Outcome (Phrase α))
  /-- The loop goes on from a new state, in front of the tokens `rest`. -/
  | again (state : σ) (rest : List Token)

namespace Round

variable {σ α : Type}

/-- A round that goes on behind what it reads, and leaves the loop with the error if it fails. -/
def reading : Outcome (Phrase σ) → Round σ α
  | .ok (s, rest) => again s rest
  | .error h => leave (.error h)

/-- The outcome of the loop, if that of the rounds that follow is `next`. -/
def run (next : σ → Reader α) : Round σ α → Outcome (Phrase α)
  | leave o => o
  | again s rest => next s rest

/-- A round in front of `ts` goes on only behind a token of `ts`. -/
def Advances (ts : List Token) (r : Round σ α) : Prop :=
  ∀ s rest, r = again s rest → ∃ taken, taken ≠ [] ∧ ts = taken ++ rest

theorem advances_leave (ts : List Token) (o : Outcome (Phrase α)) :
    (leave o : Round σ α).Advances ts := by
  rintro _ _ ⟨⟩

theorem advances_reading {ts us : List Token} {p : Reader σ}
    (h : ∀ s rest, p us = .ok (s, rest) → ∃ taken, taken ≠ [] ∧ ts = taken ++ rest) :
    (reading (p us) : Round σ α).Advances ts := by
  intro s rest hEq
  cases hRead : p us with
  | error e => simp [hRead, reading] at hEq
  | ok x =>
    obtain ⟨a, vs⟩ := x
    rw [hRead] at hEq
    obtain ⟨rfl, rfl⟩ := Round.again.inj hEq
    exact h a vs hRead

/-- Reading behind a token that was taken goes on behind that token. -/
theorem advances_behind {t : Token} {ts : List Token} {p : Reader σ} (h : Forward p) :
    (reading (p ts) : Round σ α).Advances (t :: ts) := by
  refine advances_reading fun s rest hRead => ?_
  obtain ⟨taken, rfl⟩ := h ts s rest hRead
  exact ⟨t :: taken, List.cons_ne_nil t taken, rfl⟩

theorem advances_consuming {ts : List Token} {p : Reader σ} (h : Consuming p) :
    (reading (p ts) : Round σ α).Advances ts :=
  advances_reading (h ts)

theorem run_reading (next : σ → Reader α) (o : Outcome (Phrase σ)) :
    (reading o).run next = o >>= fun x => next x.1 x.2 := by
  cases o <;> rfl

end Round

section Rounds

variable (fin : Ending) (fuel : Nat)

/-- An operator of a chain behind the tree `left`, and what it takes on the right. -/
def readLink (left : Node) (op : ChainOp) : Reader Node :=
  andThen (readOperand fin fuel) fun next =>
    andThen (readChain fin fuel op.precedence next) fun right => done (op.join left right)

/-- One round of a chain: one operator above the threshold, with its right operand. -/
def chainRound (threshold : Nat) (left : Node) : List Token → Round Node Node
  | [] => .leave (fin.close left)
  | t :: rest =>
    match t.chainOp? with
    | none => .leave (.ok (left, t :: rest))
    | some op =>
      if op.precedence ≤ threshold then .leave (.ok (left, t :: rest))
      else .reading (readLink fin fuel left op rest)

/-- An argument list behind its opening bracket, applied to `callee`. -/
def readCall (callee : Node) : Reader Node :=
  andThen (readItems fin (readExpression fin fuel) ',' ')' fuel true) fun args =>
    done (.call callee args)

/-- One round of argument lists: one list. -/
def argumentsRound (callee : Node) : List Token → Round Node Node
  | [] => .leave (fin.close callee)
  | t :: rest =>
    if t.isMark '(' then .reading (readCall fin fuel callee rest)
    else .leave (.ok (callee, t :: rest))

/-- The part of a round that reads an item, unless the closing mark stands there. -/
def itemRound {α : Type} (item : Reader α) (stop : Char) (ts : List Token) : Round α (List α) :=
  if nextIs stop ts then .leave (.ok ([], ts.tail)) else .reading (item ts)

/-- One round of a list: the separator, unless it is the first round, and an item. The closing mark
ends the list in front of the separator and behind it. -/
def itemsRound {α : Type} (item : Reader α) (separator stop : Char) (first : Bool)
    (ts : List Token) : Round α (List α) :=
  if ts.isEmpty then .leave (.error (fin.missing (.punctuation stop)))
  else if nextIs stop ts then .leave (.ok ([], ts.tail))
  else if first then itemRound item stop ts
  else
    match takeMark fin separator ts with
    | .error h => .leave (.error h)
    | .ok (_, ts) => itemRound item stop ts

/-- One round of a program: an expression, and the semicolon unless the text ends there. -/
def programRound : List Token → Round Node (List Node)
  | [] => .leave (fin.close [])
  | t :: ts =>
    match readExpression fin fuel (t :: ts) with
    | .error h => .leave (.error h)
    | .ok (x, []) => .leave (fin.close [x])
    | .ok (x, u :: us) => .reading (andThen (takeMark fin ';') (fun _ => done x) (u :: us))

/-- What follows an item, put behind it. -/
def behindItem {α : Type} (a : α) (p : Reader (List α)) : Reader (List α) :=
  andThen p fun as => done (a :: as)

theorem readChain_rounds (threshold : Nat) (left : Node) (ts : List Token) :
    readChain fin (fuel + 1) threshold left ts =
      (chainRound fin fuel threshold left ts).run (readChain fin fuel threshold) := by
  cases ts with
  | nil => rfl
  | cons t rest =>
    simp only [readChain, chainRound]
    cases t.chainOp? with
    | none => rfl
    | some op =>
      by_cases hWeak : op.precedence ≤ threshold
      · simp only [hWeak, if_true]
        rfl
      · simp only [hWeak, if_false, Round.run_reading, readLink, Reader.andThen, done, bind_assoc]
        rfl

theorem chainRound_advances (threshold : Nat) (left : Node) (ts : List Token) :
    (chainRound fin fuel threshold left ts).Advances ts := by
  cases ts with
  | nil => exact Round.advances_leave _ _
  | cons t rest =>
    have hBuilt := built_readers fin fuel
    have hLink : ∀ op, Forward (readLink fin fuel left op) := fun op =>
      (hBuilt.operand.andThen fun next =>
        (hBuilt.chain op.precedence next).andThen fun right => .done _).forward
    rw [chainRound]
    split
    · exact Round.advances_leave _ _
    · split
      · exact Round.advances_leave _ _
      · exact Round.advances_behind (hLink _)

theorem readArguments_rounds (callee : Node) (ts : List Token) :
    readArguments fin (fuel + 1) callee ts =
      (argumentsRound fin fuel callee ts).run (readArguments fin fuel) := by
  cases ts with
  | nil => rfl
  | cons t rest =>
    simp only [readArguments, argumentsRound]
    cases t.isMark '(' with
    | false => rfl
    | true =>
      simp only [if_true, Round.run_reading, readCall, Reader.andThen, done, bind_assoc]
      rfl

theorem argumentsRound_advances (callee : Node) (ts : List Token) :
    (argumentsRound fin fuel callee ts).Advances ts := by
  cases ts with
  | nil => exact Round.advances_leave _ _
  | cons t rest =>
    have hCall : Forward (readCall fin fuel callee) :=
      ((readItems_built (built_readers fin fuel).expression fuel true).andThen
        fun args => .done _).forward
    rw [argumentsRound]
    split
    · exact Round.advances_behind hCall
    · exact Round.advances_leave _ _

theorem readItems_rounds {α : Type} (item : Reader α) (separator stop : Char) (first : Bool)
    (ts : List Token) :
    readItems fin item separator stop (fuel + 1) first ts =
      (itemsRound fin item separator stop first ts).run fun a =>
        behindItem a (readItems fin item separator stop fuel false) := by
  -- behind the separator, or without one, stands the closing mark or an item
  have hItem : ∀ us : List Token,
      (if nextIs stop us then pure ([], us.tail) else
        item us >>= fun x => behindItem x.1 (readItems fin item separator stop fuel false) x.2) =
      (itemRound item stop us).run fun a =>
        behindItem a (readItems fin item separator stop fuel false) := by
    intro us
    rw [itemRound]
    split
    · rfl
    · rw [Round.run_reading]
  rw [readItems, itemsRound]
  split
  · rfl
  · split
    · rfl
    · cases first with
      | true => exact hItem ts
      | false =>
        simp only [Bool.false_eq_true, if_false]
        cases takeMark fin separator ts with
        | error h => rfl
        | ok x => exact hItem x.2

theorem itemRound_advances {α : Type} {item : Reader α} (hItem : Consuming item) (stop : Char)
    (ts : List Token) : (itemRound item stop ts).Advances ts := by
  rw [itemRound]
  split
  · exact Round.advances_leave _ _
  · exact Round.advances_consuming hItem

theorem itemsRound_advances {α : Type} {item : Reader α} (hItem : Consuming item)
    (separator stop : Char) (first : Bool) (ts : List Token) :
    (itemsRound fin item separator stop first ts).Advances ts := by
  rw [itemsRound]
  split
  · exact Round.advances_leave _ _
  · split
    · exact Round.advances_leave _ _
    · split
      · exact itemRound_advances hItem stop ts
      · cases hMark : takeMark fin separator ts with
        | error h => exact Round.advances_leave _ _
        | ok x =>
          obtain ⟨u, us⟩ := x
          obtain ⟨t, rfl, -⟩ := takeMark_eq_ok.mp hMark
          intro a rest hAgain
          obtain ⟨taken, -, rfl⟩ := itemRound_advances hItem stop us a rest hAgain
          exact ⟨t :: taken, List.cons_ne_nil t taken, rfl⟩

theorem readProgram_rounds (ts : List Token) :
    readProgram fin (fuel + 1) ts =
      (programRound fin fuel ts).run fun x => behindItem x (readProgram fin fuel) := by
  cases ts with
  | nil => rfl
  | cons t ts =>
    rw [readProgram, programRound]
    cases readExpression fin fuel (t :: ts) with
    | error h => rfl
    | ok x =>
      obtain ⟨x, us⟩ := x
      cases us with
      | nil => rfl
      | cons u us =>
        simp only [Round.run_reading, Reader.andThen, done, bind_assoc]
        rfl

theorem programRound_advances (ts : List Token) : (programRound fin fuel ts).Advances ts := by
  cases ts with
  | nil => exact Round.advances_leave _ _
  | cons t ts =>
    rw [programRound]
    cases hRead : readExpression fin fuel (t :: ts) with
    | error h => exact Round.advances_leave _ _
    | ok x =>
      obtain ⟨x, us⟩ := x
      obtain ⟨taken, hSome, hEq⟩ := readExpression_consuming (t :: ts) x us hRead
      cases us with
      | nil => exact Round.advances_leave _ _
      | cons u us =>
        have hSemicolon : Forward (Reader.andThen (takeMark fin ';') fun _ => done x) :=
          ((takeMark_built ';').andThen fun _ => .done x).forward
        refine Round.advances_reading fun y rest hMark => ?_
        obtain ⟨more, hMore⟩ := hSemicolon (u :: us) y rest hMark
        refine ⟨taken ++ more, ?_, by rw [hEq, hMore, List.append_assoc]⟩
        exact List.append_ne_nil_of_left_ne_nil hSome more

end Rounds

-- ----------------------------------------------------------------------------
-- Trivia
-- ----------------------------------------------------------------------------

/-- One round of skipping trivia: white space and the comment behind it, with its line feed. It is
what the round skips and what is left, if there is a comment. -/
def triviaRound (text : List Char) : Option (List Char × List Char) :=
  match text.dropWhile isSpace with
  | '#' :: cs =>
    let body := cs.takeWhile (· != '\n')
    let rest := cs.dropWhile (· != '\n')
    some (text.takeWhile isSpace ++ '#' :: (body ++ rest.take 1), rest.drop 1)
  | _ => none

section Trivia

variable {text skipped rest : List Char}

theorem blank_takeWhile (text : List Char) : Blank (text.takeWhile isSpace) := by
  induction text with
  | nil => exact .nil
  | cons c text ih =>
    cases hSpace : isSpace c with
    | true =>
      rw [List.takeWhile_cons_of_pos hSpace]
      exact .space hSpace ih
    | false =>
      rw [List.takeWhile_cons_of_neg (by simp [hSpace])]
      exact .nil

/-- White space is skipped, and then what is left. -/
theorem splitTrivia_spaces (text : List Char) : splitTrivia false text =
    (text.takeWhile isSpace ++ (splitTrivia false (text.dropWhile isSpace)).1,
      (splitTrivia false (text.dropWhile isSpace)).2) := by
  have hBlank := splitTrivia_blank (blank_takeWhile text) (text.dropWhile isSpace)
  rwa [List.takeWhile_append_dropWhile] at hBlank

/-- A comment is skipped up to its line feed, and then what is left. -/
theorem splitTrivia_line (cs : List Char) : splitTrivia true cs =
    (cs.takeWhile (· != '\n') ++ (cs.dropWhile (· != '\n')).take 1 ++
        (splitTrivia false ((cs.dropWhile (· != '\n')).drop 1)).1,
      (splitTrivia false ((cs.dropWhile (· != '\n')).drop 1)).2) := by
  have hBody : '\n' ∉ cs.takeWhile (· != '\n') := fun hMem => by
    simpa using List.mem_takeWhile_imp hMem
  have hAll := List.takeWhile_append_dropWhile (p := (· != '\n')) (l := cs)
  cases hRest : cs.dropWhile (· != '\n') with
  | nil =>
    rw [hRest, List.append_nil] at hAll
    rw [hAll] at hBody ⊢
    rw [splitTrivia_open hBody]
    simp [splitTrivia]
  | cons c us =>
    have hHead := List.head?_dropWhile_not (· != '\n') cs
    rw [hRest] at hHead
    obtain rfl : c = '\n' := by simpa using hHead
    rw [hRest] at hAll
    conv_lhs => rw [← hAll]
    rw [splitTrivia_comment hBody]
    simp

/-- **Trivia is skipped round by round.** -/
theorem splitTrivia_rounds (text : List Char) : splitTrivia false text =
    match triviaRound text with
    | none => (text.takeWhile isSpace, text.dropWhile isSpace)
    | some (skipped, rest) =>
      (skipped ++ (splitTrivia false rest).1, (splitTrivia false rest).2) := by
  have hHead := List.head?_dropWhile_not isSpace text
  rw [splitTrivia_spaces, triviaRound]
  generalize text.dropWhile isSpace = us at hHead
  cases us with
  | nil => simp [splitTrivia]
  | cons c cs =>
    by_cases hHash : c = '#'
    · subst hHash
      rw [splitTrivia_hash, splitTrivia_line]
      simp
    · rw [splitTrivia_stop (by simpa using hHead) hHash]
      simp [hHash]

theorem triviaRound_advances (h : triviaRound text = some (skipped, rest)) :
    skipped ≠ [] ∧ text = skipped ++ rest := by
  rw [triviaRound] at h
  split at h
  · rename_i cs hComment
    obtain ⟨rfl, rfl⟩ := Prod.mk.inj (Option.some.inj h)
    refine ⟨by simp, ?_⟩
    have hSpaces := List.takeWhile_append_dropWhile (p := isSpace) (l := text)
    have hLine := List.takeWhile_append_dropWhile (p := (· != '\n')) (l := cs)
    have hBreak := List.take_append_drop 1 (cs.dropWhile (· != '\n'))
    rw [hComment] at hSpaces
    simp only [List.append_assoc, List.cons_append, hBreak, hLine, hSpaces]
  · cases h

end Trivia

-- ----------------------------------------------------------------------------
-- Fuel
-- ----------------------------------------------------------------------------

/-- Readers that decide alike, and that know the same end of the text, have the same outcome. -/
theorem Built.outcome_eq {α : Type} {fin : Ending} {p q : Reader α} (hp : Built fin p)
    (hq : Built fin q) (hAhead : Foresees p q) (hMatched : Matched p q) {ts : List Token}
    (hLasts : p ts ≠ .error .outOfFuel) (hLasts' : q ts ≠ .error .outOfFuel) : q ts = p ts := by
  -- a verdict is reached again
  have hVerdict : ∀ v t rest, p ts = Verdict.at v t rest → q ts = p ts := by
    intro v t rest hEq
    obtain ⟨before, rest', rfl, hAt, hAgain⟩ := hAhead ts v t rest hEq
    rcases hAgain before t rest' rfl rfl with hSame | hOut
    · rw [hSame, hAt]
    · exact absurd hOut hLasts'
  have hAlike := hMatched ts ts rfl
  cases hRead : p ts with
  | ok x =>
    obtain ⟨a, rest⟩ := x
    cases rest with
    | cons t rest => exact hRead ▸ hVerdict (.phrase a) t rest hRead
    | nil =>
      rw [hRead] at hAlike
      generalize q ts = o at hAlike hLasts'
      cases hAlike with
      | phrase _ hRest =>
        obtain rfl := List.map_eq_nil_iff.mp hRest.symm
        rfl
      | cutRight => exact absurd rfl hLasts'
  | error h =>
    cases h with
    | outOfFuel => exact absurd hRead hLasts
    | fault e =>
      have hExplained := hp.explains hRead
      rw [hRead] at hAlike
      cases hAgain : q ts with
      | ok x =>
        rw [hAgain] at hAlike
        cases hAlike
      | error h =>
        cases h with
        | outOfFuel => exact absurd hAgain hLasts'
        | fault e' =>
          have hExplained' := hq.explains hAgain
          rw [hAgain] at hAlike
          obtain ⟨⟩ := hAlike
          rename_i hCause
          cases e with
          | unexpectedToken expected found =>
            rw [← hAgain, ← hRead]
            exact hVerdict (.refusal expected) found [] hRead
          -- the end of the text is the same for both
          | prematureEnd expected p =>
            cases e' <;> cases hCause
            cases hExplained.symm.trans hExplained'
            rfl
          | lexical error =>
            cases e' <;> try cases hCause
            cases hExplained.symm.trans hExplained'
            rfl

/-- **Fuel linear in the number of tokens suffices for a program**, and more has no influence. -/
theorem readProgram_fuel_eq {fin : Ending} {fuel : Nat} {ts : List Token}
    (hFuel : 4 * ts.length + 5 ≤ fuel) :
    readProgram fin fuel ts ≠ .error .outOfFuel ∧
      readProgram fin fuel ts = readProgram fin (parseFuel ts.length) ts := by
  have hLasts : ∀ {fuel}, 4 * ts.length + 5 ≤ fuel →
      readProgram fin fuel ts ≠ .error .outOfFuel := by
    intro fuel hFuel hCut
    have hLasting := (readProgram_sated hFuel : Sated ts.length (readProgram fin fuel)) ts le_rfl
    rw [hCut] at hLasting
    exact hLasting rfl
  have hEnough : 4 * ts.length + 5 ≤ parseFuel ts.length := by
    unfold parseFuel
    omega
  refine ⟨hLasts hFuel, ?_⟩
  exact (readProgram_built fin _).outcome_eq (readProgram_built fin fuel)
    (readProgram_foresees fin fin _ fuel) (readProgram_matched rfl _ fuel) (hLasts hEnough)
    (hLasts hFuel)

/-- A scan needs one unit of fuel for each character and one for the end. -/
theorem scanFrom_fuel_eq {source : String} {fuel : Nat} (hFuel : source.toList.length < fuel) :
    scanFrom fuel (.ofText source) = scan source := by
  obtain ⟨past, rest, hText, hEnd⟩ := iterateAll_ends source
  exact (hText.scanFrom_eq hEnd hFuel).trans (scan_eq hText hEnd).symm

/-- What is parsed, with any amounts of fuel that suffice for the scan and for the reader. -/
theorem parse_fuel_eq {source : String} {fuel fuel' : Nat} (hScan : source.toList.length < fuel)
    (hRead : 4 * (scan source).tokens.length + 5 ≤ fuel') :
    ∃ o : Outcome (Phrase (List Node)), o ≠ .error .outOfFuel ∧
      readProgram (scanFrom fuel (.ofText source)).ending fuel'
        (scanFrom fuel (.ofText source)).tokens = o ∧
      (∀ n, parse source = .ok n ↔ ∃ body rest, o = .ok (body, rest) ∧ n = .program body) ∧
      ∀ e, parse source = .error e ↔ o = .error (.fault e) := by
  obtain ⟨hLasts, hSame⟩ : _ ∧ readProgram (scan source).ending fuel' _ = _ :=
    readProgram_fuel_eq hRead
  rw [scanFrom_fuel_eq hScan]
  refine ⟨_, hLasts, rfl, ?_⟩
  unfold parse Scan.parse
  rw [← hSame]
  generalize readProgram _ fuel' _ = o at hLasts
  cases o with
  | ok phrase =>
    obtain ⟨body, rest⟩ := phrase
    simp [eq_comm]
  | error h =>
    cases h with
    | outOfFuel => exact absurd rfl hLasts
    | fault e => simp [eq_comm]

-- ----------------------------------------------------------------------------
-- Progress
-- ----------------------------------------------------------------------------

/-- **Reading makes progress, round by round, and comes to an end.** An operand and an expression
take a token, and no reader gives one back. A round of each loop leaves it or takes a token, and a
round of trivia takes a character. With fuel linear in the number of tokens no reader runs out of
it, and every text is parsed with any amounts that suffice. -/
theorem reading_makes_progress (fin : Ending) :
    (∀ fuel, Consuming (readOperand fin fuel) ∧ Consuming (readExpression fin fuel) ∧
      Forwards fin fuel) ∧
    (∀ fuel threshold left ts,
      readChain fin (fuel + 1) threshold left ts =
        (chainRound fin fuel threshold left ts).run (readChain fin fuel threshold) ∧
      (chainRound fin fuel threshold left ts).Advances ts) ∧
    (∀ fuel callee ts,
      readArguments fin (fuel + 1) callee ts =
        (argumentsRound fin fuel callee ts).run (readArguments fin fuel) ∧
      (argumentsRound fin fuel callee ts).Advances ts) ∧
    (∀ (α : Type) (item : Reader α) separator stop fuel first ts,
      readItems fin item separator stop (fuel + 1) first ts =
        (itemsRound fin item separator stop first ts).run
          (fun a => behindItem a (readItems fin item separator stop fuel false)) ∧
      (Consuming item → (itemsRound fin item separator stop first ts).Advances ts)) ∧
    Consuming (takeName fin) ∧
    (∀ fuel ts,
      readProgram fin (fuel + 1) ts =
        (programRound fin fuel ts).run (fun x => behindItem x (readProgram fin fuel)) ∧
      (programRound fin fuel ts).Advances ts) ∧
    (∀ text,
      splitTrivia false text =
        (match triviaRound text with
        | none => (text.takeWhile isSpace, text.dropWhile isSpace)
        | some (skipped, rest) =>
          (skipped ++ (splitTrivia false rest).1, (splitTrivia false rest).2)) ∧
      ∀ skipped rest, triviaRound text = some (skipped, rest) →
        skipped ≠ [] ∧ text = skipped ++ rest) ∧
    (∀ fuel, Fueled fin fuel) ∧
    (∀ fuel ts, 4 * ts.length + 5 ≤ fuel →
      readProgram fin fuel ts ≠ .error .outOfFuel ∧
        readProgram fin fuel ts = readProgram fin (parseFuel ts.length) ts) ∧
    ∀ source fuel fuel', source.toList.length < fuel →
      4 * (scan source).tokens.length + 5 ≤ fuel' →
      ∃ o : Outcome (Phrase (List Node)), o ≠ .error .outOfFuel ∧
        readProgram (scanFrom fuel (.ofText source)).ending fuel'
          (scanFrom fuel (.ofText source)).tokens = o ∧
        (∀ n, parse source = .ok n ↔ ∃ body rest, o = .ok (body, rest) ∧ n = .program body) ∧
        ∀ e, parse source = .error e ↔ o = .error (.fault e) := by
  refine ⟨fun fuel => ⟨readOperand_consuming, readExpression_consuming, forward_readers fin fuel⟩,
    fun fuel threshold left ts => ?chain, fun fuel callee ts => ?arguments,
    fun α item separator stop fuel first ts => ?items, takeName_consuming,
    fun fuel ts => ?program, fun text => ?trivia, sated_readers fin,
    fun fuel ts hFuel => readProgram_fuel_eq hFuel,
    fun source fuel fuel' hScan hRead => parse_fuel_eq hScan hRead⟩
  case chain =>
    refine ⟨readChain_rounds fin fuel threshold left ts, ?_⟩
    exact chainRound_advances fin fuel threshold left ts
  case arguments =>
    exact ⟨readArguments_rounds fin fuel callee ts, argumentsRound_advances fin fuel callee ts⟩
  case items =>
    refine ⟨readItems_rounds fin fuel item separator stop first ts, fun hItem => ?_⟩
    exact itemsRound_advances fin hItem separator stop first ts
  case program => exact ⟨readProgram_rounds fin fuel ts, programRound_advances fin fuel ts⟩
  case trivia => exact ⟨splitTrivia_rounds text, fun _ _ hRound => triviaRound_advances hRound⟩

/-- The tokens of `f(a,@` and the error behind them. -/
def brokenCall : Scan :=
  ⟨[⟨.name "f", ⟨1, 1⟩⟩, ⟨.punctuation '(', ⟨1, 2⟩⟩, ⟨.name "a", ⟨1, 3⟩⟩,
      ⟨.punctuation ',', ⟨1, 4⟩⟩],
    .failed ⟨.unexpectedCharacter '@', ⟨1, 5⟩⟩⟩

/-- In front of an error too, a round of arguments takes its item and comes to an end. -/
theorem reading_makes_progress_brokenCall :
    (∃ taken, taken ≠ [] ∧ brokenCall.tokens = taken ++ brokenCall.tokens.drop 1) ∧
    (∃ taken, taken ≠ [] ∧ brokenCall.tokens.drop 2 = taken ++ brokenCall.tokens.drop 3) ∧
    triviaRound "  # note".toList = some ("  # note".toList, []) ∧
    "  # note".toList ≠ [] ∧ "  # note".toList = "  # note".toList ++ [] ∧
    readProgram brokenCall.ending 21 brokenCall.tokens ≠ .error .outOfFuel ∧
    ∃ o : Outcome (Phrase (List Node)), o ≠ .error .outOfFuel ∧
      readProgram (scanFrom 6 (.ofText "f(a,@")).ending 21
        (scanFrom 6 (.ofText "f(a,@")).tokens = o ∧
      ∀ e, parse "f(a,@" = .error e ↔ o = .error (.fault e) := by
  obtain ⟨hTaking, -, -, hItems, hName, -, hTrivia, -, hFuel, hParse⟩ :=
    reading_makes_progress brokenCall.ending
  have hRound : triviaRound "  # note".toList = some ("  # note".toList, []) := by decide
  obtain ⟨hSkipped, hText⟩ := (hTrivia _).2 _ _ hRound
  refine ⟨hName _ "f" _ rfl, ?_, hRound, hSkipped, hText, (hFuel 21 _ (by decide)).1, ?_⟩
  · exact (hItems _ _ ',' ')' 0 true _).2 (hTaking 4).2.1 (.var "a") _ rfl
  · obtain ⟨o, hLasts, hRead, -, hError⟩ := hParse "f(a,@" 6 21 (by decide) (by decide)
    exact ⟨o, hLasts, hRead, hError⟩

end Zaban
