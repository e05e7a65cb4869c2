import Zaban.Proofs.Number.Finite

/-!
# What the reader accepts

The reader accepts spelled texts only: what it reads as a value, behind white
space, spells that value (`read_accepts`). Besides, the value is no deeper than
the arrays and objects that could still be opened, and its numbers are finite,
because a number beyond the largest one is refused where it stands.

Each reader takes some characters off the front of a text, and takes the same
ones whatever follows. For strings this is `Takes`, which also keeps count of
the places inside and outside of quotes; for numbers it is `Consumes`.
-/

namespace Zaban.Json

-- ----------------------------------------------------------------------------
-- Readings that succeed
-- ----------------------------------------------------------------------------

section Ok

variable {α β : Type}

theorem bind_eq_ok {x : Reading α} {f : α → Reading β} {b : β} :
    (x >>= f) = .ok b ↔ ∃ a, x = .ok a ∧ f a = .ok b := by
  cases x with
  | error e =>
    constructor
    · rintro ⟨⟩
    · rintro ⟨_, ⟨⟩, _⟩
  | ok a =>
    constructor
    · intro h
      exact ⟨a, rfl, h⟩
    · rintro ⟨_, ⟨⟩, h⟩
      exact h

theorem pure_eq_ok {a b : α} : (pure a : Reading α) = .ok b ↔ a = b :=
  ⟨Except.ok.inj, congrArg Except.ok⟩

end Ok

/-- Leading white space and the text behind it. -/
theorem exists_gap (cs : List Char) : ∃ gap, Gap gap ∧ cs = gap ++ skipGap cs := by
  refine ⟨cs.takeWhile isGap, ?_, List.takeWhile_append_dropWhile.symm⟩
  intro c hc
  exact List.mem_takeWhile_imp hc

-- ----------------------------------------------------------------------------
-- Strings
-- ----------------------------------------------------------------------------

/-- What is read are the first characters of the text, whatever follows them, and they lead from the
place `p` to the place `q`. -/
def Takes {α : Type} (p q : Place) (read : List Char → Reading (α × List Char)) : Prop :=
  ∀ ⦃cs : List Char⦄ ⦃a : α⦄ ⦃rest : List Char⦄, read cs = .ok (a, rest) →
    ∃ taken, cs = taken ++ rest ∧ (∀ more, read (taken ++ more) = .ok (a, more)) ∧
      ∀ level more, nestingFrom p level (taken ++ more) = nestingFrom q level more

section Takes

variable {α β : Type} {p q r : Place}

theorem takes_error (d : Defect) : Takes p q fun _ => (.error d : Reading (α × List Char)) := by
  rintro _ _ _ ⟨⟩

theorem takes_pure (a : α) : Takes p p fun cs => (pure (a, cs) : Reading (α × List Char)) := by
  intro cs b rest h
  obtain ⟨rfl, rfl⟩ := Prod.mk.inj (pure_eq_ok.mp h)
  exact ⟨[], rfl, fun _ => rfl, fun _ _ => rfl⟩

theorem Takes.bind {read : List Char → Reading (α × List Char)} (h : Takes p q read)
    {next : α → List Char → Reading (β × List Char)} (hNext : ∀ a, Takes q r (next a)) :
    Takes p r fun cs => read cs >>= fun x => next x.1 x.2 := by
  intro cs b rest hRead
  obtain ⟨⟨a, mid⟩, hFirst, hSecond⟩ := bind_eq_ok.mp hRead
  obtain ⟨taken, rfl, hTaken, hPlace⟩ := h hFirst
  obtain ⟨taken', rfl, hTaken', hPlace'⟩ := hNext a hSecond
  refine ⟨taken ++ taken', (List.append_assoc ..).symm, ?_, ?_⟩
  · intro more
    rw [List.append_assoc]
    exact bind_eq_ok.mpr ⟨_, hTaken _, hTaken' more⟩
  · intro level more
    rw [List.append_assoc, hPlace, hPlace']

/-- A character inside of quotes opens no bracket. -/
theorem nestingFrom_cons {c : Char} (hPlace : p.next c = q) (hInside : p ≠ .between) (level : Nat)
    (cs : List Char) : nestingFrom p level (c :: cs) = nestingFrom q level cs := by
  have hLevel : p.level level c = level := by
    cases p with
    | between => exact absurd rfl hInside
    | quoted | escaped => rfl
  rw [nestingFrom, hPlace, hLevel]
  exact Nat.max_eq_right (le_nestingFrom q level cs)

theorem readChar_eq_ok {x : Char} {cs rest : List Char} (h : readChar x cs = .ok rest) :
    cs = x :: rest := by
  cases cs with
  | nil => cases h
  | cons c cs =>
    simp only [readChar, readWord] at h
    split at h
    · rename_i hEq
      rw [hEq, Except.ok.inj h]
    · cases h

theorem Takes.after_char {x : Char} (hPlace : p.next x = q) (hInside : p ≠ .between)
    {read : List Char → Reading (α × List Char)} (h : Takes q r read) :
    Takes p r fun cs => readChar x cs >>= read := by
  intro cs a rest hRead
  obtain ⟨mid, hChar, hRest⟩ := bind_eq_ok.mp hRead
  obtain rfl := readChar_eq_ok hChar
  obtain ⟨taken, rfl, hTaken, hNesting⟩ := h hRest
  refine ⟨x :: taken, rfl, ?_, ?_⟩
  · intro more
    refine bind_eq_ok.mpr ⟨taken ++ more, ?_, hTaken more⟩
    simp [readChar, readWord]
  · intro level more
    rw [List.cons_append, nestingFrom_cons hPlace hInside, hNesting]

end Takes

theorem hexValue?_plain {c : Char} {n : Nat} (h : hexValue? c = some n) :
    Place.next .quoted c = .quoted := by
  have hAll : hexValue? '"' = none ∧ hexValue? '\\' = none := by decide
  have hQuote : c ≠ '"' := by
    rintro rfl
    rw [hAll.1] at h
    cases h
  have hSlash : c ≠ '\\' := by
    rintro rfl
    rw [hAll.2] at h
    cases h
  rw [Place.next, if_neg hQuote, if_neg hSlash]

theorem readUnit_takes : Takes .quoted .quoted readUnit := by
  intro cs n rest h
  unfold readUnit at h
  split at h
  · cases h
  rename_i hLong
  split at h
  · rename_i a b c d cs
    split at h
    · rename_i va vb vc vd ha hb hc hd
      obtain ⟨rfl, rfl⟩ := Prod.mk.inj (Except.ok.inj h)
      refine ⟨[a, b, c, d], rfl, ?_, ?_⟩
      · intro more
        have hLong' : ¬ underFourBytes (a :: b :: c :: d :: more) = true := hLong
        simp only [List.cons_append, List.nil_append, readUnit, hLong', ha, hb, hc, hd]
        rfl
      · intro level more
        have hStep := fun {c n} (hHex : hexValue? c = some n) (more : List Char) =>
          nestingFrom_cons (hexValue?_plain hHex) (by rintro ⟨⟩) level more
        simp only [List.cons_append, List.nil_append, hStep ha, hStep hb, hStep hc, hStep hd]
    · cases h
  · cases h

/-- Reads what is left of a pair of surrogates behind its last unit. -/
def readPair (high low : Nat) (cs : List Char) : Reading (Char × List Char) :=
  if isLowSurrogate low then
    return (Char.ofNat (0x10000 + (high - 0xd800) * 0x400 + (low - 0xdc00)), cs)
  else .error .malformed

/-- Reads what is left of a character behind its first unit. -/
def readBehindUnit (high : Nat) (cs : List Char) : Reading (Char × List Char) :=
  if isLowSurrogate high then .error .malformed
  else if isHighSurrogate high then
    readChar '\\' cs >>= fun cs => readChar 'u' cs >>= fun cs =>
      readUnit cs >>= fun x => readPair high x.1 x.2
  else return (Char.ofNat high, cs)

theorem readPair_takes (high low : Nat) : Takes .quoted .quoted (readPair high low) := by
  unfold readPair
  split
  · exact takes_pure _
  · exact takes_error .malformed

theorem readBehindUnit_takes (high : Nat) : Takes .quoted .quoted (readBehindUnit high) := by
  unfold readBehindUnit
  split_ifs
  · exact takes_error .malformed
  · have hLow := readUnit_takes.bind (readPair_takes high)
    have hLetter := hLow.after_char (p := .escaped) (x := 'u') rfl (by rintro ⟨⟩)
    exact hLetter.after_char (p := .quoted) (x := '\\') rfl (by rintro ⟨⟩)
  · exact takes_pure _

theorem readCodePoint_takes : Takes .quoted .quoted readCodePoint :=
  readUnit_takes.bind readBehindUnit_takes

theorem readEscape_takes : Takes .escaped .quoted readEscape := by
  intro cs x rest h
  cases cs with
  | nil => cases h
  | cons c cs =>
    rw [readEscape] at h
    have hStep := nestingFrom_cons (p := .escaped) (q := .quoted) (c := c) rfl (by rintro ⟨⟩)
    split at h
    · rename_i hUnit
      obtain ⟨taken, rfl, hTaken, hNesting⟩ := readCodePoint_takes h
      refine ⟨c :: taken, rfl, ?_, ?_⟩
      · intro more
        rw [List.cons_append, readEscape, if_pos hUnit]
        exact hTaken more
      · intro level more
        rw [List.cons_append, hStep, hNesting]
    · rename_i hLetter
      split at h
      · rename_i y hy
        obtain ⟨rfl, rfl⟩ := Prod.mk.inj (Except.ok.inj h)
        refine ⟨[c], rfl, ?_, fun level more => hStep level more⟩
        intro more
        rw [List.singleton_append, readEscape, if_neg hLetter, hy]
      · cases h

/-- What is read as a string, behind its opening quote, ends with its closing quote. -/
theorem readString_takes {fuel : Nat} {cs s rest : List Char}
    (h : readString fuel cs = .ok (s, rest)) :
    ∃ inner, cs = inner ++ rest ∧
      (∀ fuel more, inner.length ≤ fuel → readString fuel (inner ++ more) = .ok (s, more)) ∧
      ∀ level more,
        nestingFrom .quoted level (inner ++ more) = nestingFrom .between level more := by
  induction fuel generalizing cs s with
  | zero => cases h
  | succ fuel ih =>
    cases cs with
    | nil => cases h
    | cons c cs =>
      rw [readString] at h
      simp only at h
      split_ifs at h with hQuote hSlash hControl
      · obtain ⟨rfl, rfl⟩ := Prod.mk.inj (Except.ok.inj h)
        refine ⟨[c], rfl, ?_, ?_⟩
        · intro fuel more hFuel
          obtain ⟨fuel, rfl⟩ : ∃ f, fuel = f + 1 := ⟨fuel - 1, by simp at hFuel; omega⟩
          rw [List.singleton_append, readString]
          simp only [hQuote, if_true]
        · intro level more
          exact nestingFrom_cons (by simp [Place.next, hQuote]) (by rintro ⟨⟩) level more
      · obtain ⟨⟨x, mid⟩, hEscape, h⟩ := bind_eq_ok.mp h
        obtain ⟨⟨s', rest'⟩, hString, h⟩ := bind_eq_ok.mp h
        obtain ⟨rfl, rfl⟩ := Prod.mk.inj (pure_eq_ok.mp h)
        obtain ⟨taken, rfl, hTaken, hNesting⟩ := readEscape_takes hEscape
        obtain ⟨inner, rfl, hInner, hNesting'⟩ := ih hString
        refine ⟨c :: (taken ++ inner), by simp, ?_, ?_⟩
        · intro fuel more hFuel
          rw [List.length_cons, List.length_append] at hFuel
          obtain ⟨fuel, rfl⟩ : ∃ f, fuel = f + 1 := ⟨fuel - 1, by omega⟩
          rw [List.cons_append, readString]
          simp only [hSlash, Char.reduceEq, if_false, if_true, List.append_assoc]
          refine bind_eq_ok.mpr ⟨_, hTaken _, bind_eq_ok.mpr ⟨_, hInner fuel more (by omega), rfl⟩⟩
        · intro level more
          rw [List.cons_append, List.append_assoc,
            nestingFrom_cons (q := .escaped) (by simp [Place.next, hSlash]) (by rintro ⟨⟩),
            hNesting, hNesting']
      · obtain ⟨⟨s', rest'⟩, hString, h⟩ := bind_eq_ok.mp h
        obtain ⟨rfl, rfl⟩ := Prod.mk.inj (pure_eq_ok.mp h)
        obtain ⟨inner, rfl, hInner, hNesting⟩ := ih hString
        refine ⟨c :: inner, rfl, ?_, ?_⟩
        · intro fuel more hFuel
          rw [List.length_cons] at hFuel
          obtain ⟨fuel, rfl⟩ : ∃ f, fuel = f + 1 := ⟨fuel - 1, by omega⟩
          rw [List.cons_append, readString]
          simp only [hQuote, hSlash, hControl, if_false]
          exact bind_eq_ok.mpr ⟨_, hInner fuel more (by omega), rfl⟩
        · intro level more
          rw [List.cons_append,
            nestingFrom_cons (q := .quoted) (by simp [Place.next, hQuote, hSlash]) (by rintro ⟨⟩),
            hNesting]

theorem readText_accepts {fuel : Nat} {cs rest : List Char} {s : String}
    (h : readText fuel cs = .ok (s, rest)) :
    ∃ inner, cs = inner ++ rest ∧ Quoted s ('"' :: inner) := by
  obtain ⟨⟨s', rest'⟩, hString, h⟩ := bind_eq_ok.mp h
  obtain ⟨rfl, rfl⟩ := Prod.mk.inj (pure_eq_ok.mp h)
  obtain ⟨inner, rfl, hInner, hNesting⟩ := readString_takes hString
  refine ⟨inner, rfl, inner, rfl, ?_, ?_⟩
  · intro level more
    have hLe := le_nestingFrom .between level more
    rw [List.cons_append, nestingFrom]
    show max level (nestingFrom .quoted level (inner ++ more)) = _
    rw [hNesting]
    omega
  · intro fuel more hFuel
    exact bind_eq_ok.mpr ⟨_, hInner fuel more hFuel, rfl⟩

-- ----------------------------------------------------------------------------
-- Numbers
-- ----------------------------------------------------------------------------

/-- The numbers of a value are finite. -/
inductive AllFinite : Json → Prop where
  | null : AllFinite null
  | bool (b : Bool) : AllFinite (bool b)
  | string (s : String) : AllFinite (string s)
  | integer {n : Int} (h : isFinite (Float.ofInt n) = true) : AllFinite (integer n)
  | real {x : Float} (h : isFinite x = true) : AllFinite (real x)
  | array {items : List Json} (h : ∀ x ∈ items, AllFinite x) : AllFinite (array items)
  | object {members : List (String × Json)} (h : ∀ m ∈ members, AllFinite m.2) :
      AllFinite (object members)

/-- What is read are the first characters of the text, and they are read alike on their own, as a
finite number. -/
def Consumes (read : List Char → Reading (Json × List Char)) : Prop :=
  ∀ ⦃cs : List Char⦄ ⦃j : Json⦄ ⦃rest : List Char⦄, read cs = .ok (j, rest) →
    (∃ taken, cs = taken ++ rest ∧ read taken = .ok (j, [])) ∧ j.depth = 0 ∧ j.AllFinite

section Numbers

variable {negative : Bool} {significand : Nat} (hWord : significand ≤ maxWord)

theorem collect_le (significand : Nat) (hWord : significand ≤ maxWord) (cs : List Char) :
    (collect significand cs).1 ≤ maxWord := by
  induction cs generalizing significand with
  | nil => exact hWord
  | cons c cs ih =>
    rw [collect]
    simp only
    split
    · exact hWord
    · exact ih _ (by omega)

/-- Digits in front of what follows them in the text. -/
theorem takeWhile_digits_of_front {cs taken rest : List Char}
    (h : cs.dropWhile Char.isDigit = taken ++ rest) :
    (cs.takeWhile Char.isDigit ++ taken).takeWhile Char.isDigit = cs.takeWhile Char.isDigit ∧
      (cs.takeWhile Char.isDigit ++ taken).dropWhile Char.isDigit = taken := by
  induction cs with
  | nil =>
    obtain ⟨rfl, -⟩ := List.nil_eq_append_iff.mp h
    exact ⟨rfl, rfl⟩
  | cons c cs ih =>
    cases hDigit : c.isDigit with
    | true =>
      rw [List.dropWhile_cons_of_pos hDigit] at h
      obtain ⟨hTake, hDrop⟩ := ih h
      rw [List.takeWhile_cons_of_pos hDigit, List.cons_append, List.takeWhile_cons_of_pos hDigit,
        List.dropWhile_cons_of_pos hDigit, hTake, hDrop]
      exact ⟨rfl, rfl⟩
    | false =>
      have hNot : ¬ c.isDigit = true := by simp [hDigit]
      rw [List.dropWhile_cons_of_neg hNot] at h
      rw [List.takeWhile_cons_of_neg hNot, List.nil_append]
      cases taken with
      | nil => exact ⟨rfl, rfl⟩
      | cons d taken =>
        obtain ⟨rfl, -⟩ := List.cons.inj h
        rw [List.takeWhile_cons_of_neg hNot, List.dropWhile_cons_of_neg hNot]
        exact ⟨rfl, rfl⟩

include hWord

/-- Nothing is read of the text, and a number is put together. -/
theorem consumes_fromParts {e : Int} {cs rest : List Char} {j : Json}
    (h : (fromParts negative significand e >>= fun x => pure (x, cs)) = .ok (j, rest)) :
    cs = rest ∧ fromParts negative significand e = .ok j ∧ j.depth = 0 ∧ j.AllFinite := by
  obtain ⟨x, hParts, h⟩ := bind_eq_ok.mp h
  obtain ⟨rfl, rfl⟩ := Prod.mk.inj (pure_eq_ok.mp h)
  obtain ⟨y, rfl, hFinite⟩ := fromParts_finite hWord hParts
  exact ⟨rfl, hParts, rfl, .real hFinite⟩

theorem readMagnitude_consumes (start : Int) (down : Bool) :
    Consumes (readMagnitude negative significand start down) := by
  intro cs j rest h
  obtain ⟨hTake, hDrop⟩ := takeWhile_digits_of_front
    (List.nil_append (cs.dropWhile Char.isDigit)).symm
  rw [List.append_nil] at hTake hDrop
  have hText : cs = cs.takeWhile Char.isDigit ++ cs.dropWhile Char.isDigit :=
    List.takeWhile_append_dropWhile.symm
  simp only [readMagnitude] at h
  split at h
  · cases h
  rename_i hNone
  split at h
  · rename_i hLarge
    split at h
    · cases h
    · rename_i hBeyond
      obtain ⟨rfl, rfl⟩ := Prod.mk.inj (Except.ok.inj h)
      refine ⟨⟨_, hText, ?_⟩, rfl, .real ?_⟩
      · simp only [readMagnitude, hTake, hDrop, hNone, hLarge, hBeyond]
        rfl
      · cases negative <;> decide +kernel
  · rename_i hSmall
    obtain ⟨rfl, hParts, hScalar⟩ := consumes_fromParts hWord h
    refine ⟨⟨_, hText, ?_⟩, hScalar⟩
    simp only [readMagnitude, hTake, hDrop, hNone, hSmall]
    exact bind_eq_ok.mpr ⟨_, hParts, rfl⟩

theorem readExponent_consumes (start : Int) :
    Consumes (readExponent negative significand start) := by
  intro cs j rest h
  have hDigits : ∀ down, Consumes (readMagnitude negative significand start down) :=
    readMagnitude_consumes hWord start
  cases cs with
  | nil => cases h
  | cons c cs =>
    by_cases hPlus : c = '+'
    · subst hPlus
      obtain ⟨⟨taken, rfl, hTaken⟩, hScalar⟩ := hDigits false h
      exact ⟨⟨'+' :: taken, rfl, hTaken⟩, hScalar⟩
    by_cases hMinus : c = '-'
    · subst hMinus
      obtain ⟨⟨taken, rfl, hTaken⟩, hScalar⟩ := hDigits true h
      exact ⟨⟨'-' :: taken, rfl, hTaken⟩, hScalar⟩
    -- without a sign the digits start at once
    have hSign : ∀ ds, exponentSign (c :: ds) = (false, c :: ds) := by
      intro ds
      unfold exponentSign
      split
      · rename_i hEq
        exact absurd (List.cons.inj hEq).1 hPlus
      · rename_i hEq
        exact absurd (List.cons.inj hEq).1 hMinus
      · rfl
    rw [readExponent_eq, hSign] at h
    obtain ⟨⟨taken, hText, hTaken⟩, hScalar⟩ := hDigits false h
    refine ⟨⟨taken, hText, ?_⟩, hScalar⟩
    cases taken with
    | nil => cases hTaken
    | cons d taken =>
      obtain ⟨rfl, -⟩ := List.cons.inj hText
      rw [readExponent_eq, hSign]
      exact hTaken

theorem readScaled_consumes (e : Int) : Consumes (readScaled negative significand e) := by
  intro cs j rest h
  cases cs with
  | nil =>
    obtain ⟨rfl, hParts, hScalar⟩ := consumes_fromParts hWord h
    exact ⟨⟨[], rfl, h⟩, hScalar⟩
  | cons c cs =>
    rw [readScaled_eq] at h
    split at h
    · rename_i hLetter
      obtain ⟨⟨taken, rfl, hTaken⟩, hScalar⟩ := readExponent_consumes hWord e h
      refine ⟨⟨c :: taken, rfl, ?_⟩, hScalar⟩
      rw [readScaled_eq, if_pos hLetter]
      exact hTaken
    · obtain ⟨rfl, hParts, hScalar⟩ := consumes_fromParts hWord h
      exact ⟨⟨[], rfl, bind_eq_ok.mpr ⟨_, hParts, rfl⟩⟩, hScalar⟩

theorem readFraction_consumes (e : Int) : Consumes (readFraction negative significand e) := by
  intro cs j rest h
  simp only [readFraction] at h
  split at h
  · cases h
  rename_i hNone
  obtain ⟨⟨taken, hText, hTaken⟩, hScalar⟩ := readScaled_consumes (collect_le _ hWord _) _ h
  obtain ⟨hTake, hDrop⟩ := takeWhile_digits_of_front hText
  refine ⟨⟨cs.takeWhile Char.isDigit ++ taken, ?_, ?_⟩, hScalar⟩
  · rw [List.append_assoc, ← hText, List.takeWhile_append_dropWhile]
  · simp only [readFraction, hTake, hDrop, hNone]
    exact hTaken

omit hWord

theorem fromWord_finite (hWord : significand ≤ maxWord) :
    (fromWord negative significand).depth = 0 ∧ (fromWord negative significand).AllFinite := by
  have hFinite := isFinite_ofNat hWord
  unfold fromWord
  split_ifs
  · exact ⟨rfl, .integer hFinite⟩
  · exact ⟨rfl, .real (isFinite_neg hFinite)⟩
  · refine ⟨rfl, .integer ?_⟩
    cases significand with
    | zero => decide +kernel
    | succ n => exact isFinite_neg hFinite

theorem readBehindWhole_consumes (digits : List Char) :
    Consumes (readBehindWhole negative digits) := by
  intro cs j rest h
  have hWord := collect_le 0 (Nat.zero_le maxWord) digits
  cases cs with
  | nil =>
    have hRead := h
    simp only [readBehindWhole, List.head?_nil, reduceCtorEq, false_or] at h
    split at h
    · obtain ⟨⟨taken, hText, -⟩, hScalar⟩ := readScaled_consumes hWord _ h
      obtain ⟨rfl, rfl⟩ := List.nil_eq_append_iff.mp hText
      exact ⟨⟨[], rfl, hRead⟩, hScalar⟩
    · obtain ⟨rfl, rfl⟩ := Prod.mk.inj (Except.ok.inj h)
      exact ⟨⟨[], rfl, hRead⟩, fromWord_finite hWord⟩
  | cons c cs =>
    rw [readBehindWhole_cons] at h
    simp only at h
    by_cases hPoint : c = '.'
    · rw [if_pos hPoint] at h
      obtain ⟨⟨taken, rfl, hTaken⟩, hScalar⟩ := readFraction_consumes hWord _ h
      refine ⟨⟨c :: taken, rfl, ?_⟩, hScalar⟩
      rw [readBehindWhole_cons]
      simp only [if_pos hPoint]
      exact hTaken
    rw [if_neg hPoint] at h
    by_cases hLetter : c = 'e' ∨ c = 'E'
    · rw [if_pos (by tauto), readScaled_eq, if_pos hLetter] at h
      obtain ⟨⟨taken, rfl, hTaken⟩, hScalar⟩ := readExponent_consumes hWord _ h
      refine ⟨⟨c :: taken, rfl, ?_⟩, hScalar⟩
      rw [readBehindWhole_cons]
      simp only [if_neg hPoint]
      rw [if_pos (by tauto), readScaled_eq, if_pos hLetter]
      exact hTaken
    -- what follows is no part of the number
    by_cases hDropped : (collect 0 digits).2.2 = []
    · rw [if_neg (by tauto)] at h
      obtain ⟨rfl, rfl⟩ := Prod.mk.inj (Except.ok.inj h)
      refine ⟨⟨[], rfl, ?_⟩, fromWord_finite hWord⟩
      simp [readBehindWhole, hDropped]
    · rw [if_pos (by tauto), readScaled_eq, if_neg hLetter] at h
      obtain ⟨rfl, hParts, hScalar⟩ := consumes_fromParts hWord h
      refine ⟨⟨[], rfl, ?_⟩, hScalar⟩
      simp only [readBehindWhole, List.head?_nil, reduceCtorEq, false_or, ne_eq, hDropped,
        not_false_eq_true, if_true]
      exact bind_eq_ok.mpr ⟨_, hParts, rfl⟩

theorem readNumber_consumes : Consumes (readNumber negative) := by
  intro cs j rest h
  simp only [readNumber_eq] at h
  split at h
  · cases h
  split at h
  · cases h
  rename_i hNone hZero
  obtain ⟨⟨taken, hText, hTaken⟩, hScalar⟩ := readBehindWhole_consumes _ h
  obtain ⟨hTake, hDrop⟩ := takeWhile_digits_of_front hText
  refine ⟨⟨cs.takeWhile Char.isDigit ++ taken, ?_, ?_⟩, hScalar⟩
  · rw [List.append_assoc, ← hText, List.takeWhile_append_dropWhile]
  · simp only [readNumber_eq, hTake, hDrop, hNone, hZero]
    exact hTaken

end Numbers

-- ----------------------------------------------------------------------------
-- Scalars
-- ----------------------------------------------------------------------------

theorem readWord_eq_ok {word cs rest : List Char} (h : readWord word cs = .ok rest) :
    cs = word ++ rest := by
  induction word generalizing cs with
  | nil => exact Except.ok.inj h
  | cons w ws ih =>
    cases cs with
    | nil => cases h
    | cons c cs =>
      rw [readWord] at h
      split at h
      · rename_i hEq
        rw [hEq, ih h, List.cons_append]
      · cases h

/-- **What is read as a scalar spells it.** -/
theorem readScalar_accepts {fuel : Nat} {c : Char} {cs rest : List Char} {j : Json}
    (h : readScalar fuel c cs = .ok (j, rest)) :
    ∃ token, c :: cs = token ++ rest ∧ Scalar j token ∧ j.AllFinite := by
  have hWord : ∀ {word : List Char} {i : Json}, Scalar i (c :: word) → i.AllFinite →
      (readWord word cs >>= fun cs => pure (i, cs)) = .ok (j, rest) →
      ∃ token, c :: cs = token ++ rest ∧ Scalar j token ∧ j.AllFinite := by
    intro word i hScalar hFinite hRead
    obtain ⟨rest', hWord, hRead⟩ := bind_eq_ok.mp hRead
    obtain ⟨rfl, rfl⟩ := Prod.mk.inj (pure_eq_ok.mp hRead)
    exact ⟨c :: word, by rw [readWord_eq_ok hWord, List.cons_append], hScalar, hFinite⟩
  unfold readScalar at h
  split at h
  · subst_vars
    exact hWord .null .null h
  split at h
  · subst_vars
    exact hWord .yes (.bool true) h
  split at h
  · subst_vars
    exact hWord .no (.bool false) h
  split at h
  · subst_vars
    obtain ⟨⟨s, rest'⟩, hText, h⟩ := bind_eq_ok.mp h
    obtain ⟨rfl, rfl⟩ := Prod.mk.inj (pure_eq_ok.mp h)
    obtain ⟨inner, rfl, hQuoted⟩ := readText_accepts hText
    exact ⟨_, rfl, .string hQuoted, .string s⟩
  split at h
  · subst_vars
    obtain ⟨⟨taken, rfl, hTaken⟩, hDepth, hFinite⟩ := readNumber_consumes h
    exact ⟨'-' :: taken, rfl, .number (numeral_negative hDepth hTaken), hFinite⟩
  split at h
  · rename_i hSign hDigit
    obtain ⟨⟨taken, hText, hTaken⟩, hDepth, hFinite⟩ := readNumber_consumes h
    exact ⟨taken, hText, .number (numeral_positive hDepth hTaken), hFinite⟩
  · cases h

-- ----------------------------------------------------------------------------
-- Values
-- ----------------------------------------------------------------------------

section Separators

variable {stop : Char} {first : Bool} {cs rest : List Char}

theorem readSeparator_eq_false (h : readSeparator stop first cs = .ok (false, rest)) :
    ∃ gap, Gap gap ∧ cs = gap ++ stop :: rest := by
  obtain ⟨gap, hGap, hText⟩ := exists_gap cs
  unfold readSeparator at h
  split at h
  · cases h
  rename_i c cs' hSkip
  split_ifs at h with hStop hFirst hComma
  · obtain ⟨-, rfl⟩ := Prod.mk.inj (Except.ok.inj h)
    refine ⟨gap, hGap, ?_⟩
    rw [← hStop, ← hSkip]
    exact hText
  · cases h
  · split at h
    · cases h
    · split at h <;> cases h

theorem readSeparator_eq_true (h : readSeparator stop first cs = .ok (true, rest)) :
    ∃ lead, Lead first lead ∧ cs = lead ++ rest := by
  obtain ⟨gap, hGap, hText⟩ := exists_gap cs
  unfold readSeparator at h
  split at h
  · cases h
  rename_i c cs' hSkip
  split_ifs at h with hStop hFirst hComma
  · cases h
  · obtain ⟨-, rfl⟩ := Prod.mk.inj (Except.ok.inj h)
    refine ⟨gap, ?_, by rw [← hSkip]; exact hText⟩
    rw [hFirst]
    exact .first hGap
  · obtain ⟨gap', hGap', hText'⟩ := exists_gap cs'
    obtain rfl : first = false := by simpa using hFirst
    split at h
    · cases h
    rename_i d cs'' hSkip'
    split at h
    · cases h
    · obtain ⟨-, rfl⟩ := Prod.mk.inj (Except.ok.inj h)
      refine ⟨gap ++ ',' :: gap', .comma hGap hGap', ?_⟩
      rw [hText, hSkip, hComma, hText', hSkip', List.append_assoc, List.cons_append]

end Separators

theorem Lead.append_gap {first : Bool} {lead gap : List Char} (h : Lead first lead)
    (hGap : Gap gap) : Lead first (lead ++ gap) := by
  cases h with
  | first hFirst => exact .first (hFirst.append hGap)
  | comma hBefore hAfter =>
    rw [List.append_assoc, List.cons_append]
    exact .comma hBefore (hAfter.append hGap)

section Members

variable {fuel : Nat} {cs rest : List Char}

theorem readKey_accepts {key : String} (h : readKey fuel cs = .ok (key, rest)) :
    ∃ ks, cs = ks ++ rest ∧ Quoted key ks := by
  cases cs with
  | nil => cases h
  | cons c cs =>
    rw [readKey] at h
    split at h
    · rename_i hQuote
      obtain ⟨inner, rfl, hQuoted⟩ := readText_accepts h
      exact ⟨_, by rw [hQuote, List.cons_append], hQuoted⟩
    · cases h

theorem readColon_eq_ok (h : readColon cs = .ok rest) :
    ∃ gap, Gap gap ∧ cs = gap ++ ':' :: rest := by
  obtain ⟨gap, hGap, hText⟩ := exists_gap cs
  refine ⟨gap, hGap, ?_⟩
  rw [← readChar_eq_ok h]
  exact hText

end Members

/-- The text spells the value, which is at most `limit` deep and has finite numbers. -/
structure Accepted (limit : Nat) (j : Json) (cs : List Char) : Prop where
  spelled  : Spelled j cs
  depth_le : j.depth ≤ limit
  finite   : j.AllFinite

section Accepted

variable {limit : Nat} {body : List Char}

theorem Parts.exists_part {α : Type} {part : α → List Char → Prop} {first : Bool} {xs : List α}
    (h : Parts part first xs body) {x : α} (hx : x ∈ xs) : ∃ cs, part x cs := by
  induction h with
  | nil => cases hx
  | cons _ hPart _ ih =>
    rcases List.mem_cons.mp hx with rfl | hx
    · exact ⟨_, hPart⟩
    · exact ih hx

theorem itemsDepth_le {items : List Json} (h : ∀ x ∈ items, x.depth ≤ limit) :
    itemsDepth items ≤ limit := by
  induction items with
  | nil => exact Nat.zero_le limit
  | cons x xs ih =>
    exact Nat.max_le.mpr ⟨h x List.mem_cons_self, ih fun y hy => h y (List.mem_cons_of_mem x hy)⟩

theorem membersDepth_le {members : List (String × Json)} (h : ∀ m ∈ members, m.2.depth ≤ limit) :
    membersDepth members ≤ limit := by
  induction members with
  | nil => exact Nat.zero_le limit
  | cons m ms ih =>
    exact Nat.max_le.mpr ⟨h m List.mem_cons_self, ih fun y hy => h y (List.mem_cons_of_mem m hy)⟩

theorem Parts.accepted_array {items : List Json} (h : Parts (Accepted limit) true items body) :
    Accepted (limit + 1) (.array items) ('[' :: (body ++ [']'])) where
  spelled := .array (h.imp fun _ _ hPart => hPart.spelled)
  depth_le := by
    refine Nat.succ_le_succ (itemsDepth_le fun x hx => ?_)
    obtain ⟨_, hPart⟩ := h.exists_part hx
    exact hPart.depth_le
  finite := by
    refine .array fun x hx => ?_
    obtain ⟨_, hPart⟩ := h.exists_part hx
    exact hPart.finite

theorem Member.value {value : Json → List Char → Prop} {m : String × Json} {cs : List Char}
    (h : Member value m cs) : ∃ cs, value m.2 cs := by
  cases h with
  | pair _ _ _ hValue => exact ⟨_, hValue⟩

theorem Parts.accepted_object {members : List (String × Json)}
    (h : Parts (Member (Accepted limit)) true members body) :
    Accepted (limit + 1) (.object members) ('{' :: (body ++ ['}'])) where
  spelled := .object (h.imp fun _ _ hPart => hPart.imp fun _ _ hValue => hValue.spelled)
  depth_le := by
    refine Nat.succ_le_succ (membersDepth_le fun m hm => ?_)
    obtain ⟨_, hPart⟩ := h.exists_part hm
    obtain ⟨_, hValue⟩ := hPart.value
    exact hValue.depth_le
  finite := by
    refine .object fun m hm => ?_
    obtain ⟨_, hPart⟩ := h.exists_part hm
    obtain ⟨_, hValue⟩ := hPart.value
    exact hValue.finite

end Accepted

/-- What the readers take with this fuel spells what they return: behind white space a value, and up
to the closing bracket the items of an array and the members of an object. -/
structure Accepts (fuel : Nat) : Prop where
  value : ∀ {limit : Nat} {cs rest : List Char} {j : Json},
    readValue fuel limit cs = .ok (j, rest) →
      ∃ gap token, Gap gap ∧ cs = gap ++ (token ++ rest) ∧ Accepted limit j token
  items : ∀ {limit : Nat} {first : Bool} {cs rest : List Char} {items : List Json},
    readItems fuel limit first cs = .ok (items, rest) →
      ∃ body, cs = body ++ ']' :: rest ∧ Parts (Accepted limit) first items body
  members : ∀ {limit : Nat} {first : Bool} {cs rest : List Char} {members : List (String × Json)},
    readMembers fuel limit first cs = .ok (members, rest) →
      ∃ body, cs = body ++ '}' :: rest ∧ Parts (Member (Accepted limit)) first members body

section Accepts

variable {fuel limit : Nat} {first : Bool} {cs rest : List Char}

theorem Accepts.next_value (ih : Accepts fuel) {j : Json}
    (h : readValue (fuel + 1) limit cs = .ok (j, rest)) :
    ∃ gap token, Gap gap ∧ cs = gap ++ (token ++ rest) ∧ Accepted limit j token := by
  obtain ⟨gap, hGap, hText⟩ := exists_gap cs
  rw [readValue] at h
  split at h
  · cases h
  rename_i c cs' hSkip
  rw [hSkip] at hText
  split_ifs at h with hArray hObject
  · cases limit with
    | zero => cases h
    | succ limit =>
      obtain ⟨⟨items, rest'⟩, hItems, h⟩ := bind_eq_ok.mp h
      obtain ⟨rfl, rfl⟩ := Prod.mk.inj (pure_eq_ok.mp h)
      obtain ⟨body, rfl, hParts⟩ := ih.items hItems
      refine ⟨gap, _, hGap, ?_, hParts.accepted_array⟩
      rw [hText, hArray]
      simp
  · cases limit with
    | zero => cases h
    | succ limit =>
      obtain ⟨⟨members, rest'⟩, hMembers, h⟩ := bind_eq_ok.mp h
      obtain ⟨rfl, rfl⟩ := Prod.mk.inj (pure_eq_ok.mp h)
      obtain ⟨body, rfl, hParts⟩ := ih.members hMembers
      refine ⟨gap, _, hGap, ?_, hParts.accepted_object⟩
      rw [hText, hObject]
      simp
  · obtain ⟨token, hToken, hScalar, hFinite⟩ := readScalar_accepts h
    refine ⟨gap, token, hGap, by rw [← hToken]; exact hText, .scalar hScalar, ?_, hFinite⟩
    rw [hScalar.depth_eq]
    exact Nat.zero_le limit

theorem Accepts.next_items (ih : Accepts fuel) {items : List Json}
    (h : readItems (fuel + 1) limit first cs = .ok (items, rest)) :
    ∃ body, cs = body ++ ']' :: rest ∧ Parts (Accepted limit) first items body := by
  rw [readItems] at h
  obtain ⟨⟨more, cs'⟩, hSeparator, h⟩ := bind_eq_ok.mp h
  cases more with
  | false =>
    obtain ⟨rfl, rfl⟩ := Prod.mk.inj (pure_eq_ok.mp h)
    obtain ⟨gap, hGap, rfl⟩ := readSeparator_eq_false hSeparator
    exact ⟨gap, rfl, .nil hGap⟩
  | true =>
    obtain ⟨⟨x, cs₁⟩, hValue, h⟩ := bind_eq_ok.mp h
    obtain ⟨⟨xs, cs₂⟩, hRest, h⟩ := bind_eq_ok.mp h
    obtain ⟨rfl, rfl⟩ := Prod.mk.inj (pure_eq_ok.mp h)
    obtain ⟨lead, hLead, rfl⟩ := readSeparator_eq_true hSeparator
    obtain ⟨gap, token, hGap, rfl, hAccepted⟩ := ih.value hValue
    obtain ⟨body, rfl, hParts⟩ := ih.items hRest
    exact ⟨_, by simp, .cons (hLead.append_gap hGap) hAccepted hParts⟩

theorem Accepts.next_members (ih : Accepts fuel) {members : List (String × Json)}
    (h : readMembers (fuel + 1) limit first cs = .ok (members, rest)) :
    ∃ body, cs = body ++ '}' :: rest ∧ Parts (Member (Accepted limit)) first members body := by
  rw [readMembers] at h
  obtain ⟨⟨more, cs'⟩, hSeparator, h⟩ := bind_eq_ok.mp h
  cases more with
  | false =>
    obtain ⟨rfl, rfl⟩ := Prod.mk.inj (pure_eq_ok.mp h)
    obtain ⟨gap, hGap, rfl⟩ := readSeparator_eq_false hSeparator
    exact ⟨gap, rfl, .nil hGap⟩
  | true =>
    obtain ⟨⟨key, cs₁⟩, hKey, h⟩ := bind_eq_ok.mp h
    obtain ⟨cs₂, hColon, h⟩ := bind_eq_ok.mp h
    obtain ⟨⟨x, cs₃⟩, hValue, h⟩ := bind_eq_ok.mp h
    obtain ⟨⟨xs, cs₄⟩, hRest, h⟩ := bind_eq_ok.mp h
    obtain ⟨rfl, rfl⟩ := Prod.mk.inj (pure_eq_ok.mp h)
    obtain ⟨lead, hLead, rfl⟩ := readSeparator_eq_true hSeparator
    obtain ⟨ks, rfl, hQuoted⟩ := readKey_accepts hKey
    obtain ⟨gap, hGap, rfl⟩ := readColon_eq_ok hColon
    obtain ⟨gap', token, hGap', rfl, hAccepted⟩ := ih.value hValue
    obtain ⟨body, rfl, hParts⟩ := ih.members hRest
    exact ⟨_, by simp, .cons hLead (.pair hQuoted hGap hGap' hAccepted) hParts⟩

end Accepts

/-- **What is read as a value spells it**, and so do the parts of arrays and objects. -/
theorem read_accepts (fuel : Nat) : Accepts fuel := by
  induction fuel with
  | zero => exact ⟨by rintro _ _ _ _ ⟨⟩, by rintro _ _ _ _ _ ⟨⟩, by rintro _ _ _ _ _ ⟨⟩⟩
  | succ fuel ih => exact ⟨ih.next_value, ih.next_items, ih.next_members⟩

theorem within_of_le {α : Type} {n limit : Nat} (h : n ≤ limit) (a : α) :
    within n limit a = .ok a :=
  if_pos h

/-- Every value that can be spelled has finite numbers. -/
theorem Spelled.allFinite {j : Json} {cs : List Char} (h : Spelled j cs) : j.AllFinite := by
  have hRead := h.reads.read (2 * cs.length) j.depth [] [] gap_nil (by rintro _ ⟨⟩) (Nat.le_refl _)
  rw [within_of_le (Nat.le_refl _)] at hRead
  obtain ⟨_, _, -, -, hAccepted⟩ := (read_accepts _).value hRead
  exact hAccepted.finite

end Zaban.Json
