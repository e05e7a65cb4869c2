import Zaban.Proofs.Grammar.EarliestError
import Zaban.Proofs.Token.Spacing

/-!
# Where tokens stand does not matter

A reader of phrases sees of a token its kind, and passes the position on into
errors without looking at it. Two readers are **matched** if on tokens of the
same kinds they give the same phrase with tokens of the same kinds behind it,
or errors that differ in their positions only; nothing is said if the recursion
of one of them was cut off (`EndsAlike`).

Matching is kept by the ways of putting readers together, so every reader
matches itself with any other fuel, and in front of an end with the same fault
(`matched_readers`). It follows that scans with one reading are parsed to one
tree or refused for one cause (`Scan.parse_placeless`).
-/

namespace Zaban

open Reader

/-- The error as it would be at the start of a text. -/
def ParseError.placeless : ParseError → ParseError
  | unexpectedToken expected found => .unexpectedToken expected ⟨found.kind, .start⟩
  | prematureEnd expected _ => .prematureEnd expected .start
  | lexical error => .lexical ⟨error.fault, .start⟩

/-- The outcomes differ in positions only, unless the recursion was cut off in one of them. -/
inductive EndsAlike {α : Type} : Outcome (Phrase α) → Outcome (Phrase α) → Prop where
  | phrase (a : α) {rest rest' : List Token} (hRest : SameKinds rest rest') :
      EndsAlike (.ok (a, rest)) (.ok (a, rest'))
  | fault {e e' : ParseError} (hCause : e.placeless = e'.placeless) :
      EndsAlike (.error (.fault e)) (.error (.fault e'))
  | cutLeft (o : Outcome (Phrase α)) : EndsAlike (.error .outOfFuel) o
  | cutRight (o : Outcome (Phrase α)) : EndsAlike o (.error .outOfFuel)

/-- On tokens of the same kinds the readers do the same. -/
def Matched {α : Type} (p q : Reader α) : Prop :=
  ∀ ts ts', SameKinds ts ts' → EndsAlike (p ts) (q ts')

/-- Two looks go on alike. -/
inductive Move.Matched {α : Type} : Move α → Move α → Prop where
  | keep {p q : Reader α} (h : Zaban.Matched p q) : Matched (.keep p) (.keep q)
  | take {p q : Reader α} (h : Zaban.Matched p q) : Matched (.take p) (.take q)
  | refuse (expected : Expected) : Matched (.refuse expected) (.refuse expected)

-- ----------------------------------------------------------------------------
-- The parts
-- ----------------------------------------------------------------------------

section Parts

variable {α β : Type} {p q : Reader α}

theorem matched_done (a : α) : Matched (done a) (done a) := fun _ _ hKinds => .phrase a hKinds

/-- A reader without fuel matches everything. -/
theorem matched_of_cut (r r' : Nat → Reader α) (hr : ∀ ts, r 0 ts = .error .outOfFuel)
    (hr' : ∀ ts, r' 0 ts = .error .outOfFuel) {fuel fuel' : Nat} (hCut : fuel = 0 ∨ fuel' = 0) :
    Matched (r fuel) (r' fuel') := by
  intro ts ts' _
  rcases hCut with rfl | rfl
  · rw [hr ts]
    exact .cutLeft _
  · rw [hr' ts']
    exact .cutRight _

theorem Matched.andThen {f g : α → Reader β} (hp : Matched p q)
    (hf : ∀ a, Matched (f a) (g a)) : Matched (andThen p f) (andThen q g) := by
  intro ts ts' hKinds
  have hFirst := hp ts ts' hKinds
  unfold Reader.andThen
  generalize p ts = o at hFirst
  generalize q ts' = o' at hFirst
  cases hFirst with
  | phrase a hRest => exact hf a _ _ hRest
  | fault hCause => exact .fault hCause
  | cutLeft => exact .cutLeft _
  | cutRight => exact .cutRight _

theorem matched_look {atEnd atEnd' : Outcome (Phrase α)} {move move' : Token → Move α}
    (hEnd : EndsAlike atEnd atEnd')
    (hMove : ∀ t t', t.kind = t'.kind → (move t).Matched (move' t')) :
    Matched (look atEnd move) (look atEnd' move') := by
  intro ts ts' hKinds
  cases ts' with
  | nil =>
    obtain rfl := hKinds.eq_nil
    exact hEnd
  | cons t' ts' =>
    obtain ⟨t, ts, rfl, hKind, hRest⟩ := hKinds.uncons
    rw [look, look]
    have hNext := hMove t t' hKind
    generalize move t = m at hNext
    generalize move' t' = m' at hNext
    cases hNext with
    | keep h => exact h _ _ hKinds
    | take h => exact h _ _ hRest
    | refuse expected => exact .fault (by simp only [ParseError.placeless, hKind])

end Parts

-- ----------------------------------------------------------------------------
-- Looks
-- ----------------------------------------------------------------------------

section Looks

variable {α : Type} {fin fin' : Ending}

theorem alike_missing (hFault : fin.fault? = fin'.fault?) (expected : Expected) :
    EndsAlike (.error (fin.missing expected) : Outcome (Phrase α))
      (.error (fin'.missing expected)) := by
  cases fin with
  | finished =>
    cases fin' with
    | finished => exact .fault rfl
    | failed => cases hFault
  | failed e =>
    cases fin' with
    | finished => cases hFault
    | failed e' => exact .fault (by rw [ParseError.placeless, Option.some.inj hFault]; rfl)

theorem alike_close (hFault : fin.fault? = fin'.fault?) (a : α) :
    EndsAlike (fin.close a) (fin'.close a) := by
  cases fin with
  | finished =>
    cases fin' with
    | finished => exact .phrase a rfl
    | failed => cases hFault
  | failed e =>
    cases fin' with
    | finished => cases hFault
    | failed e' => exact .fault (by rw [ParseError.placeless, Option.some.inj hFault]; rfl)

variable (hFault : fin.fault? = fin'.fault?)
include hFault

theorem takeMark_matched (mark : Char) : Matched (takeMark fin mark) (takeMark fin' mark) := by
  rw [takeMark_eq, takeMark_eq]
  refine matched_look (alike_missing hFault _) fun t t' hKind => ?_
  rw [Token.isMark_congr hKind]
  split
  · exact .take (matched_done ())
  · exact .refuse _

theorem takeName_matched : Matched (takeName fin) (takeName fin') := by
  rw [takeName_eq, takeName_eq]
  refine matched_look (alike_missing hFault _) fun t t' hKind => ?_
  unfold nameMove
  rw [hKind]
  split
  · exact .take (matched_done _)
  · exact .refuse _

theorem readBridge_matched : Matched (readBridge fin) (readBridge fin') := by
  rw [readBridge_eq, readBridge_eq]
  refine matched_look (alike_missing hFault _) fun t t' hKind => ?_
  unfold bridgeMove
  rw [Token.isMark_congr hKind, Token.isKeyword_congr hKind]
  split
  · exact .keep (matched_done ())
  · split
    · exact .take (matched_done ())
    · exact .refuse _

theorem readItems_matched {item item' : Reader α} {separator stop : Char} {fuel fuel' : Nat}
    (hItem : Matched item item') (first : Bool) :
    Matched (readItems fin item separator stop fuel first)
      (readItems fin' item' separator stop fuel' first) := by
  induction fuel generalizing fuel' first with
  | zero =>
    exact matched_of_cut (readItems fin item separator stop · first)
      (readItems fin' item' separator stop · first) (fun _ => rfl) (fun _ => rfl) (Or.inl rfl)
  | succ fuel ih =>
    cases fuel' with
    | zero =>
      exact matched_of_cut (readItems fin item separator stop · first)
        (readItems fin' item' separator stop · first) (fun _ => rfl) (fun _ => rfl) (Or.inr rfl)
    | succ fuel' =>
      have hMore : Matched (itemThenMore fin item separator stop fuel)
          (itemThenMore fin' item' separator stop fuel') :=
        hItem.andThen fun a => (ih false).andThen fun as => matched_done _
      have hMove : ∀ t t' : Token, t.kind = t'.kind →
          (itemMove fin item separator stop fuel t).Matched
            (itemMove fin' item' separator stop fuel' t') := by
        intro t t' hKind
        unfold itemMove
        rw [Token.isMark_congr hKind]
        split
        · exact .take (matched_done [])
        · exact .keep hMore
      cases first with
      | true =>
        rw [readItems_first_eq, readItems_first_eq]
        exact matched_look (alike_missing hFault _) hMove
      | false =>
        rw [readItems_more_eq, readItems_more_eq]
        refine matched_look (alike_missing hFault _) fun t t' hKind => ?_
        unfold separatorMove
        rw [Token.isMark_congr hKind, Token.isMark_congr hKind]
        split
        · exact .take (matched_done [])
        · split
          · exact .take (matched_look (hMore [] [] rfl) hMove)
          · exact .refuse _

end Looks

-- ----------------------------------------------------------------------------
-- The readers
-- ----------------------------------------------------------------------------

/-- Every reader matches itself with other fuel and in front of another end. -/
structure MatchedReaders (fin fin' : Ending) (fuel fuel' : Nat) : Prop where
  expression  : Matched (readExpression fin fuel) (readExpression fin' fuel')
  chain       : ∀ threshold left,
    Matched (readChain fin fuel threshold left) (readChain fin' fuel' threshold left)
  arguments   : ∀ callee, Matched (readArguments fin fuel callee) (readArguments fin' fuel' callee)
  operand     : Matched (readOperand fin fuel) (readOperand fin' fuel')
  atom        : Matched (readAtomAt fin fuel) (readAtomAt fin' fuel')
  conditional : Matched (readConditional fin fuel) (readConditional fin' fuel')
  function    : Matched (readFunction fin fuel) (readFunction fin' fuel')

section Step

variable {fin fin' : Ending} {fuel fuel' : Nat} (hFault : fin.fault? = fin'.fault?)
include hFault

theorem MatchedReaders.chain_succ (h : MatchedReaders fin fin' fuel fuel') (threshold : Nat)
    (left : Node) : Matched (readChain fin (fuel + 1) threshold left)
      (readChain fin' (fuel' + 1) threshold left) := by
  rw [readChain_eq, readChain_eq]
  refine matched_look (alike_close hFault left) fun t t' hKind => ?_
  unfold chainMove
  rw [Token.chainOp?_congr hKind]
  split
  · exact .keep (matched_done left)
  · split
    · exact .keep (matched_done left)
    · refine .take (h.operand.andThen fun next => ?_)
      exact (h.chain _ next).andThen fun right => h.chain _ _

theorem MatchedReaders.arguments_succ (h : MatchedReaders fin fin' fuel fuel') (callee : Node) :
    Matched (readArguments fin (fuel + 1) callee) (readArguments fin' (fuel' + 1) callee) := by
  rw [readArguments_eq, readArguments_eq]
  refine matched_look (alike_close hFault callee) fun t t' hKind => ?_
  unfold argumentsMove
  rw [Token.isMark_congr hKind]
  split
  · exact .take ((readItems_matched hFault h.expression true).andThen fun args => h.arguments _)
  · exact .keep (matched_done callee)

theorem MatchedReaders.atom_succ (h : MatchedReaders fin fin' fuel fuel') :
    Matched (readAtomAt fin (fuel + 1)) (readAtomAt fin' (fuel' + 1)) := by
  rw [readAtomAt_eq, readAtomAt_eq]
  refine matched_look (alike_missing hFault _) fun t t' hKind => ?_
  unfold atomMove
  rw [hKind]
  split
  · refine .take (h.expression.andThen fun inner => ?_)
    exact (takeMark_matched hFault ')').andThen fun _ => matched_done inner
  · exact .take ((readItems_matched hFault h.expression true).andThen fun _ => matched_done _)
  · exact .take h.conditional
  · exact .take h.function
  · exact .take h.function
  all_goals first
    | exact .take (matched_done _)
    | exact .refuse _

theorem MatchedReaders.conditional_succ (h : MatchedReaders fin fin' fuel fuel') :
    Matched (readConditional fin (fuel + 1)) (readConditional fin' (fuel' + 1)) := by
  rw [readConditional_eq, readConditional_eq]
  refine h.expression.andThen fun test => ?_
  refine (readBridge_matched hFault).andThen fun _ => ?_
  refine h.expression.andThen fun yes => ?_
  rw [readOtherwise_eq, readOtherwise_eq]
  refine matched_look (alike_close hFault _) fun t t' hKind => ?_
  unfold otherwiseMove
  rw [Token.isKeyword_congr hKind]
  split
  · exact .take (h.expression.andThen fun no => matched_done _)
  · exact .keep (matched_done _)

theorem MatchedReaders.function_succ (h : MatchedReaders fin fin' fuel fuel') :
    Matched (readFunction fin (fuel + 1)) (readFunction fin' (fuel' + 1)) := by
  rw [readFunction_eq, readFunction_eq]
  refine (takeMark_matched hFault '(').andThen fun _ => ?_
  refine (readItems_matched hFault (takeName_matched hFault) true).andThen fun params => ?_
  exact h.expression.andThen fun body => matched_done _

theorem matchedReaders_succ (h : MatchedReaders fin fin' fuel fuel') :
    MatchedReaders fin fin' (fuel + 1) (fuel' + 1) where
  expression := by
    rw [readExpression_eq, readExpression_eq]
    refine h.operand.andThen fun first => ?_
    exact (h.chain 0 first).andThen fun chain => h.arguments chain
  chain := h.chain_succ hFault
  arguments := h.arguments_succ hFault
  operand := by
    rw [readOperand_eq, readOperand_eq]
    exact h.atom.andThen fun atom => h.arguments atom
  atom := h.atom_succ hFault
  conditional := h.conditional_succ hFault
  function := h.function_succ hFault

theorem matchedReaders_cut (hCut : fuel = 0 ∨ fuel' = 0) : MatchedReaders fin fin' fuel fuel' where
  expression :=
    matched_of_cut (readExpression fin) (readExpression fin') (fun _ => rfl) (fun _ => rfl) hCut
  chain threshold left :=
    matched_of_cut (readChain fin · threshold left) (readChain fin' · threshold left)
      (fun _ => rfl) (fun _ => rfl) hCut
  arguments callee :=
    matched_of_cut (readArguments fin · callee) (readArguments fin' · callee)
      (fun _ => rfl) (fun _ => rfl) hCut
  operand :=
    matched_of_cut (readOperand fin) (readOperand fin') (fun _ => rfl) (fun _ => rfl) hCut
  atom := by
    intro ts ts' hKinds
    cases ts' with
    | nil =>
      obtain rfl := hKinds.eq_nil
      exact alike_missing hFault .expression
    | cons t' ts' =>
      obtain ⟨t, ts, rfl, -, -⟩ := hKinds.uncons
      rcases hCut with rfl | rfl
      · exact .cutLeft _
      · exact .cutRight _
  conditional :=
    matched_of_cut (readConditional fin) (readConditional fin') (fun _ => rfl) (fun _ => rfl) hCut
  function :=
    matched_of_cut (readFunction fin) (readFunction fin') (fun _ => rfl) (fun _ => rfl) hCut

/-- **No reader depends on positions**, with any amounts of fuel. -/
theorem matched_readers (fuel fuel' : Nat) : MatchedReaders fin fin' fuel fuel' := by
  induction fuel generalizing fuel' with
  | zero => exact matchedReaders_cut hFault (Or.inl rfl)
  | succ fuel ih =>
    cases fuel' with
    | zero => exact matchedReaders_cut hFault (Or.inr rfl)
    | succ fuel' => exact matchedReaders_succ hFault (ih fuel')

theorem readProgram_matched (fuel fuel' : Nat) :
    Matched (readProgram fin fuel) (readProgram fin' fuel') := by
  induction fuel generalizing fuel' with
  | zero =>
    exact matched_of_cut (readProgram fin) (readProgram fin') (fun _ => rfl) (fun _ => rfl)
      (Or.inl rfl)
  | succ fuel ih =>
    cases fuel' with
    | zero =>
      exact matched_of_cut (readProgram fin) (readProgram fin') (fun _ => rfl) (fun _ => rfl)
        (Or.inr rfl)
    | succ fuel' =>
      rw [readProgram_eq, readProgram_eq]
      refine matched_look (alike_close hFault []) fun _ _ _ => .keep ?_
      refine (matched_readers hFault fuel fuel').expression.andThen fun x => ?_
      refine matched_look (alike_close hFault [x]) fun t t' hKind => ?_
      unfold programMove
      rw [Token.isMark_congr hKind]
      split
      · exact .take ((ih fuel').andThen fun xs => matched_done _)
      · exact .refuse _

end Step

-- ----------------------------------------------------------------------------
-- Texts
-- ----------------------------------------------------------------------------

/-- **The reading of a text decides how it is parsed**, up to the position of an error. -/
theorem Scan.parse_placeless {s s' : Scan} (h : s.reading = s'.reading) :
    s.parse.mapError ParseError.placeless = s'.parse.mapError ParseError.placeless := by
  obtain ⟨hKinds, hFault⟩ := Prod.mk.inj h
  have hAlike := readProgram_matched hFault (parseFuel s.tokens.length)
    (parseFuel s'.tokens.length) s.tokens s'.tokens hKinds
  have hFuel := s.read_ne_outOfFuel
  have hFuel' := s'.read_ne_outOfFuel
  unfold Scan.parse
  generalize readProgram s.ending _ s.tokens = o at hAlike hFuel
  generalize readProgram s'.ending _ s'.tokens = o' at hAlike hFuel'
  cases hAlike with
  | phrase a hRest => rfl
  | fault hCause => exact congrArg Except.error hCause
  | cutLeft => exact absurd rfl hFuel
  | cutRight => exact absurd rfl hFuel'

/-- In particular, scans with one reading are programs of the same tree. -/
theorem Scan.parse_ok_of_reading {s s' : Scan} {n : Node} (h : s.reading = s'.reading)
    (hOk : s.parse = .ok n) : s'.parse = .ok n := by
  have hParse := Scan.parse_placeless h
  rw [hOk] at hParse
  cases hOther : s'.parse with
  | ok m =>
    rw [hOther] at hParse
    exact hParse.symm
  | error e =>
    rw [hOther] at hParse
    cases hParse

end Zaban
