import Mathlib.Data.List.TakeWhile
import Zaban.Json.Printer
import Zaban.Proofs.Json.Reading

/-!
# Numbers in a text

The reader rounds a number more than once and can miss the number that was
written by its last place. What it **converts** a written number to is `reread?`.
All that has to be known about the conversion is that it does not depend on
what follows the number: a number that is read to the end of a text is read in
the same way in front of everything that is no part of a number. This is
`Whole`, and `readNumber_whole` proves it part by part.
-/

namespace Zaban.Json

/-- The characters of which numbers are made. -/
def isNumeric (c : Char) : Bool :=
  c.isDigit || ['.', 'e', 'E', '+', '-'].contains c

/-- What reads to the end of a text takes only characters of numbers, and reads in the same way in
front of what is no part of a number. -/
def Whole (read : List Char → Reading (Json × List Char)) : Prop :=
  ∀ {cs : List Char} {j : Json}, read cs = .ok (j, []) → (∀ c ∈ cs, isNumeric c = true) ∧
    ∀ rest, Closed rest → read (cs ++ rest) = .ok (j, rest)

theorem takeWhile_digits_append {rest : List Char} (h : Closed rest) (cs : List Char) :
    (cs ++ rest).takeWhile Char.isDigit = cs.takeWhile Char.isDigit ∧
      (cs ++ rest).dropWhile Char.isDigit = cs.dropWhile Char.isDigit ++ rest := by
  induction cs with
  | nil =>
    cases rest with
    | nil => exact ⟨rfl, rfl⟩
    | cons c rest =>
      have hDigit := (h c rfl).1
      simp [hDigit]
  | cons c cs ih => cases hDigit : c.isDigit <;> simp [hDigit, ih]

theorem isNumeric_digits {cs : List Char} {c : Char} (h : c ∈ cs.takeWhile Char.isDigit) :
    isNumeric c = true := by
  have hDigit : c.isDigit = true := List.mem_takeWhile_imp h
  simp [isNumeric, hDigit]

/-- The characters of a number are its digits and what follows them. -/
theorem isNumeric_append {cs : List Char}
    (h : ∀ c ∈ cs.dropWhile Char.isDigit, isNumeric c = true) : ∀ c ∈ cs, isNumeric c = true := by
  intro c hc
  rw [← List.takeWhile_append_dropWhile (p := Char.isDigit) (l := cs)] at hc
  rcases List.mem_append.mp hc with hc | hc
  · exact isNumeric_digits hc
  · exact h c hc

/-- The sign of an exponent and its digits. -/
def exponentSign : List Char → Bool × List Char
  | '+' :: cs => (false, cs)
  | '-' :: cs => (true, cs)
  | cs => (false, cs)

/-- Reads the digits of an exponent. -/
def readMagnitude (negative : Bool) (significand : Nat) (start : Int) (down : Bool)
    (cs : List Char) : Reading (Json × List Char) :=
  let digits := cs.takeWhile Char.isDigit
  let rest := cs.dropWhile Char.isDigit
  if digits.isEmpty then .error (if cs.isEmpty then .truncated else .malformed)
  else
    let e := digits.foldl (fun n c => n * 10 + digitValue c) 0
    if maxExponent < e then
      if significand ≠ 0 ∧ !down then .error .malformed
      else .ok (.real (if negative then -0.0 else 0.0), rest)
    else do
      let x ← fromParts negative significand (if down then start - e else start + e)
      return (x, rest)

theorem readExponent_eq (negative : Bool) (significand : Nat) (start : Int) (cs : List Char) :
    readExponent negative significand start cs =
      readMagnitude negative significand start (exponentSign cs).1 (exponentSign cs).2 := rfl

/-- A reading that leaves nothing leaves what is put behind it. -/
theorem ok_of_ok_nil {x : Reading Json} {rest : List Char} {j : Json}
    (h : (x >>= fun x => pure (x, rest)) = .ok (j, [])) :
    rest = [] ∧ ∀ more : List Char, (x >>= fun x => pure (x, more)) = .ok (j, more) := by
  cases x with
  | error => cases h
  | ok y =>
    obtain ⟨rfl, rfl⟩ := Prod.mk.inj (Except.ok.inj h)
    exact ⟨rfl, fun _ => rfl⟩

theorem readMagnitude_whole (negative : Bool) (significand : Nat) (start : Int) (down : Bool) :
    Whole (readMagnitude negative significand start down) := by
  intro cs j h
  simp only [readMagnitude] at h
  split at h
  · cases h
  rename_i hDigits
  have hRest : cs.dropWhile Char.isDigit = [] ∧ ∀ rest, Closed rest →
      readMagnitude negative significand start down (cs ++ rest) = .ok (j, rest) := by
    split at h
    · rename_i hLarge
      split at h
      · cases h
      · rename_i hValue
        obtain ⟨rfl, hNone⟩ := Prod.mk.inj (Except.ok.inj h)
        refine ⟨hNone, fun rest hClosed => ?_⟩
        obtain ⟨hTake, hDrop⟩ := takeWhile_digits_append hClosed cs
        simp only [readMagnitude, hTake, hDrop, hNone, hDigits, hLarge, hValue]
        rfl
    · rename_i hSmall
      obtain ⟨hNone, hSame⟩ := ok_of_ok_nil h
      refine ⟨hNone, fun rest hClosed => ?_⟩
      obtain ⟨hTake, hDrop⟩ := takeWhile_digits_append hClosed cs
      simp only [readMagnitude, hTake, hDrop, hNone, hDigits, hSmall]
      exact hSame rest
  refine ⟨isNumeric_append ?_, hRest.2⟩
  rw [hRest.1]
  rintro _ ⟨⟩

theorem exponentSign_cons (c : Char) (cs : List Char) :
    (∀ rest, exponentSign (c :: cs ++ rest) =
      ((exponentSign (c :: cs)).1, (exponentSign (c :: cs)).2 ++ rest)) ∧
    ((∀ d ∈ (exponentSign (c :: cs)).2, isNumeric d = true) →
      ∀ d ∈ c :: cs, isNumeric d = true) := by
  have hSigned : ∀ {sign : Char}, isNumeric sign = true →
      (∀ d ∈ cs, isNumeric d = true) → ∀ d ∈ sign :: cs, isNumeric d = true := by
    intro sign hSign hAll d hd
    rcases List.mem_cons.mp hd with rfl | hd
    · exact hSign
    · exact hAll d hd
  by_cases hPlus : c = '+'
  · subst hPlus
    exact ⟨fun _ => rfl, hSigned (by decide)⟩
  by_cases hMinus : c = '-'
  · subst hMinus
    exact ⟨fun _ => rfl, hSigned (by decide)⟩
  · have hNone : ∀ ds, exponentSign (c :: ds) = (false, c :: ds) := by
      intro ds
      unfold exponentSign
      split
      · rename_i hEq
        exact absurd (List.cons.inj hEq).1 hPlus
      · rename_i hEq
        exact absurd (List.cons.inj hEq).1 hMinus
      · rfl
    rw [hNone cs]
    exact ⟨fun rest => hNone (cs ++ rest), fun hAll => hAll⟩

theorem readExponent_whole (negative : Bool) (significand : Nat) (start : Int) :
    Whole (readExponent negative significand start) := by
  intro cs j h
  cases cs with
  | nil => cases h
  | cons c cs =>
    obtain ⟨hAppend, hSign⟩ := exponentSign_cons c cs
    rw [readExponent_eq] at h
    obtain ⟨hNumeric, hRead⟩ := readMagnitude_whole _ _ _ _ h
    refine ⟨hSign hNumeric, fun rest hClosed => ?_⟩
    rw [readExponent_eq, hAppend]
    exact hRead rest hClosed

/-- What follows the digits of a number is an exponent if it starts with the letter of one. -/
theorem readScaled_eq (negative : Bool) (significand : Nat) (exponent : Int) (c : Char)
    (cs : List Char) : readScaled negative significand exponent (c :: cs) =
      if c = 'e' ∨ c = 'E' then readExponent negative significand exponent cs
      else fromParts negative significand exponent >>= fun x => pure (x, c :: cs) := by
  by_cases he : c = 'e'
  · subst he
    rfl
  by_cases hE : c = 'E'
  · subst hE
    rfl
  rw [if_neg (by simp [he, hE]), readScaled]
  · rintro _ hEq
    exact he (List.cons.inj hEq).1
  · rintro _ hEq
    exact hE (List.cons.inj hEq).1

theorem readScaled_whole (negative : Bool) (significand : Nat) (exponent : Int) :
    Whole (readScaled negative significand exponent) := by
  intro cs j h
  cases cs with
  | nil =>
    obtain ⟨-, hSame⟩ := ok_of_ok_nil h
    refine ⟨by rintro _ ⟨⟩, fun rest hClosed => ?_⟩
    cases rest with
    | nil => exact h
    | cons c rest =>
      obtain ⟨-, -, he, hE⟩ := hClosed c rfl
      rw [List.nil_append, readScaled_eq, if_neg (by simp [he, hE])]
      exact hSame _
  | cons c cs =>
    rw [readScaled_eq] at h
    split at h
    · rename_i hLetter
      obtain ⟨hNumeric, hRead⟩ := readExponent_whole _ _ _ h
      constructor
      · intro d hd
        rcases List.mem_cons.mp hd with rfl | hd
        · rcases hLetter with rfl | rfl <;> decide
        · exact hNumeric d hd
      · intro rest hClosed
        rw [List.cons_append, readScaled_eq, if_pos hLetter]
        exact hRead rest hClosed
    · cases (ok_of_ok_nil h).1

theorem readFraction_whole (negative : Bool) (significand : Nat) (exponent : Int) :
    Whole (readFraction negative significand exponent) := by
  intro cs j h
  simp only [readFraction] at h
  split at h
  · cases h
  · rename_i hDigits
    obtain ⟨hNumeric, hRead⟩ := readScaled_whole _ _ _ h
    refine ⟨isNumeric_append hNumeric, fun rest hClosed => ?_⟩
    obtain ⟨hTake, hDrop⟩ := takeWhile_digits_append hClosed cs
    simp only [readFraction, hTake, hDrop, hDigits]
    exact hRead rest hClosed

/-- What is read behind the digits of the whole part. -/
def readBehindWhole (negative : Bool) (digits rest : List Char) : Reading (Json × List Char) :=
  let (s, _, dropped) := collect 0 digits
  match rest with
  | '.' :: rest => readFraction negative s dropped.length rest
  | _ =>
    if rest.head? = some 'e' ∨ rest.head? = some 'E' ∨ dropped ≠ [] then
      readScaled negative s dropped.length rest
    else .ok (fromWord negative s, rest)

theorem readNumber_eq (negative : Bool) (cs : List Char) :
    readNumber negative cs =
      let digits := cs.takeWhile Char.isDigit
      if digits.isEmpty then .error (if cs.isEmpty then .truncated else .malformed)
      else if digits.head? = some '0' ∧ digits.length ≠ 1 then .error .malformed
      else readBehindWhole negative digits (cs.dropWhile Char.isDigit) := rfl

theorem readBehindWhole_cons (negative : Bool) (digits : List Char) (c : Char) (cs : List Char) :
    readBehindWhole negative digits (c :: cs) =
      let (s, _, dropped) := collect 0 digits
      if c = '.' then readFraction negative s dropped.length cs
      else if c = 'e' ∨ c = 'E' ∨ dropped ≠ [] then readScaled negative s dropped.length (c :: cs)
      else .ok (fromWord negative s, c :: cs) := by
  by_cases hPoint : c = '.'
  · subst hPoint
    rfl
  · simp only [readBehindWhole, hPoint, if_false, List.head?_cons, Option.some.injEq]
    split
    · rename_i hEq
      exact absurd (List.cons.inj hEq).1 hPoint
    · rfl

theorem readBehindWhole_whole (negative : Bool) (digits : List Char) :
    Whole (readBehindWhole negative digits) := by
  intro cs j h
  cases cs with
  | nil =>
    refine ⟨by rintro _ ⟨⟩, fun rest hClosed => ?_⟩
    cases rest with
    | nil => exact h
    | cons c rest =>
      obtain ⟨-, hPoint, he, hE⟩ := hClosed c rfl
      rw [List.nil_append, readBehindWhole_cons]
      simp only [hPoint, he, hE, if_false, false_or]
      simp only [readBehindWhole, List.head?_nil, reduceCtorEq, false_or] at h
      split at h
      · rename_i hDropped
        obtain ⟨-, hRead⟩ := readScaled_whole _ _ _ h
        rw [if_pos hDropped]
        exact hRead (c :: rest) hClosed
      · rename_i hDropped
        rw [if_neg hDropped]
        obtain ⟨rfl, -⟩ := Prod.mk.inj (Except.ok.inj h)
        rfl
  | cons c cs =>
    rw [readBehindWhole_cons] at h
    simp only at h
    split at h
    · rename_i hPoint
      obtain ⟨hNumeric, hRead⟩ := readFraction_whole _ _ _ h
      constructor
      · intro d hd
        rcases List.mem_cons.mp hd with rfl | hd
        · subst hPoint
          decide
        · exact hNumeric d hd
      · intro rest hClosed
        rw [List.cons_append, readBehindWhole_cons]
        simp only [hPoint, if_true]
        exact hRead rest hClosed
    split at h
    · rename_i hPoint hScaled
      obtain ⟨hNumeric, hRead⟩ := readScaled_whole _ _ _ h
      refine ⟨hNumeric, fun rest hClosed => ?_⟩
      rw [List.cons_append, readBehindWhole_cons]
      simp only [hPoint, if_false, if_pos hScaled]
      exact hRead rest hClosed
    · cases h

theorem readNumber_whole (negative : Bool) : Whole (readNumber negative) := by
  intro cs j h
  simp only [readNumber_eq] at h
  split at h
  · cases h
  split at h
  · cases h
  rename_i hDigits hZero
  obtain ⟨hNumeric, hRead⟩ := readBehindWhole_whole _ _ h
  refine ⟨isNumeric_append hNumeric, fun rest hClosed => ?_⟩
  obtain ⟨hTake, hDrop⟩ := takeWhile_digits_append hClosed cs
  simp only [readNumber_eq, hTake, hDrop, hDigits, hZero]
  exact hRead rest hClosed

/-- The number that the reader converts the written text of `x` to. -/
def reread? (x : Float) : Option Float :=
  match (realText x).toList with
  | [] => none
  | c :: cs =>
    match readScalar 0 c cs with
    | .ok (.real y, []) => some y
    | _ => none

theorem numeric_plain {c : Char} (h : isNumeric c = true) : c ∉ ['"', '[', ']', '{', '}'] := by
  have hAll : ∀ c ∈ ['"', '[', ']', '{', '}'], isNumeric c = false := by simp [isNumeric]
  intro hMem
  rw [hAll c hMem] at h
  cases h

/-- A scalar that is read as a number is a number. -/
theorem readScalar_number {c : Char} {cs : List Char} {y : Float}
    (h : readScalar 0 c cs = .ok (.real y, [])) :
    (c = '-' ∧ readNumber true cs = .ok (.real y, [])) ∨
      (c ≠ '-' ∧ c.isDigit = true ∧ readNumber false (c :: cs) = .ok (.real y, [])) := by
  have hWord : ∀ {word cs : List Char} {j : Json}, (∀ x, j ≠ .real x) →
      (readWord word cs >>= fun cs => (pure (j, cs) : Reading _)) ≠ .ok (.real y, []) := by
    intro word cs j hj
    cases readWord word cs with
    | error => rintro ⟨⟩
    | ok rest =>
      intro hEq
      exact hj y (Prod.mk.inj (Except.ok.inj hEq)).1
  unfold readScalar at h
  split at h
  · exact absurd h (hWord (by rintro _ ⟨⟩))
  split at h
  · exact absurd h (hWord (by rintro _ ⟨⟩))
  split at h
  · exact absurd h (hWord (by rintro _ ⟨⟩))
  split at h
  · cases hText : readText 0 cs with
    | error => rw [hText] at h; cases h
    | ok x => rw [hText] at h; cases h
  split at h
  · exact Or.inl ⟨‹_›, h⟩
  split at h
  · exact Or.inr ⟨‹_›, ‹_›, h⟩
  · cases h

/-- A scalar that starts with a digit is a number. -/
theorem readScalar_digit {c : Char} (h : c.isDigit = true) (fuel : Nat) (cs : List Char) :
    readScalar fuel c cs = readNumber false (c :: cs) := by
  have hWords : ∀ d ∈ ['n', 't', 'f', '"', '-'], d.isDigit = false := by simp
  have hOther : c ∉ ['n', 't', 'f', '"', '-'] := by
    intro hMem
    rw [hWords c hMem] at h
    cases h
  simp only [List.mem_cons, List.not_mem_nil, or_false, not_or] at hOther
  simp only [readScalar, hOther, h, if_false, if_true]

section Numeral

variable {j : Json} {cs : List Char} (hDepth : j.depth = 0)

include hDepth

theorem numeral_negative (h : readNumber true cs = .ok (j, [])) : Numeral j ('-' :: cs) := by
  obtain ⟨hNumeric, hReads⟩ := readNumber_whole true h
  refine ⟨'-', cs, rfl, Or.inl rfl, hDepth, nests_plain ?_, fun _ rest hRest => hReads rest hRest⟩
  intro d hd
  rcases List.mem_cons.mp hd with rfl | hd
  · decide
  · exact numeric_plain (hNumeric d hd)

theorem numeral_positive (h : readNumber false cs = .ok (j, [])) : Numeral j cs := by
  obtain ⟨hNumeric, hReads⟩ := readNumber_whole false h
  cases cs with
  | nil => cases h
  | cons c cs =>
    have hDigit : c.isDigit = true := by
      by_contra hNot
      rw [readNumber_eq] at h
      simp [hNot] at h
    refine ⟨c, cs, rfl, Or.inr hDigit, hDepth,
      nests_plain fun d hd => numeric_plain (hNumeric d hd), fun fuel rest hRest => ?_⟩
    rw [readScalar_digit hDigit]
    exact hReads rest hRest

end Numeral

theorem numeral_of_reread {x y : Float} (h : reread? x = some y) :
    Numeral (real y) (realText x).toList := by
  unfold reread? at h
  split at h
  · cases h
  rename_i c cs hText
  rw [hText]
  split at h
  · rename_i hRead
    obtain rfl := Option.some.inj h
    rcases readScalar_number hRead with ⟨rfl, hNumber⟩ | ⟨-, -, hNumber⟩
    · exact numeral_negative rfl hNumber
    · exact numeral_positive rfl hNumber
  · cases h

end Zaban.Json
