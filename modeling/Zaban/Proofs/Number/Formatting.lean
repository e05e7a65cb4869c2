import Mathlib
import Zaban.Eval.Value
import Zaban.Proofs.Number.Numerals

/-!
# Choosing the notation by comparison

The text of a number can be made from the two texts that a formatter makes of its
shortest decimal: the positional one, and the scientific one with a sign at
negative exponents only. Which one is taken is asked of the number itself, by
comparing its magnitude with `1e-6` and `1e21`, and the exponent is given its sign
afterwards, by splitting the text at the first `e` (`formatNumber`).

This is the text of the number (`text_eq_formatNumber`). The bounds are numbers
whose decimals are powers of ten, and decimals have the order of the numbers that
they are read as, so comparing agrees with the exponents of the decimals
(`Binary.between_bounds_iff`). Nothing in front of an exponent is an `e`
(`markExponent_lowerExp`).
-/

namespace Zaban

-- ----------------------------------------------------------------------------
-- Kinds of numbers
-- ----------------------------------------------------------------------------

section Kinds

variable {x y : Float} {negative : Bool} {m : Nat} {q : Int}

theorem exists_form_of_isFinite (h : x.isFinite = true) :
    ∃ negative m q, Binary.ofFloat x = .finite negative m q := by
  have hUnpacked : (Binary.ofFloat x).unpacked.isFinite = true := by
    rw [← Binary.unpack_eq]
    exact h
  cases hForm : Binary.ofFloat x with
  | finite negative m q => exact ⟨negative, m, q, rfl⟩
  | nan | infinite =>
    rw [hForm] at hUnpacked
    cases hUnpacked

theorem ofFloat_zero : Binary.ofFloat 0 = .finite false 0 (-1074) := by
  decide +kernel

theorem ofFloat_negZero : Binary.ofFloat (-0) = .finite true 0 (-1074) := by
  decide +kernel

/-- There are two zeros. -/
theorem eq_zero_of_form (h : Binary.ofFloat x = .finite negative 0 q) : x = 0 ∨ x = -0 := by
  have hLeast : q = -1074 := by
    have hFull := (Binary.inFormat_of_ofFloat h).full
    omega
  rw [hLeast] at h
  cases negative with
  | false => exact Or.inl (Binary.ofFloat_injective (h.trans ofFloat_zero.symm))
  | true => exact Or.inr (Binary.ofFloat_injective (h.trans ofFloat_negZero.symm))

theorem significand_pos (h : Binary.ofFloat x = .finite negative m q)
    (hNonzero : (x == 0) = false) : 0 < m := by
  by_contra hNone
  obtain rfl : m = 0 := by omega
  rcases eq_zero_of_form h with rfl | rfl
  · exact absurd hNonzero (by decide +kernel)
  · exact absurd hNonzero (by decide +kernel)

theorem isNaN_iff : x.isNaN = true ↔ Binary.ofFloat x = .nan := by
  have hUnpacked : x.isNaN = (Binary.ofFloat x).unpacked.isNaN := by
    rw [← Binary.unpack_eq]
    rfl
  rw [hUnpacked]
  cases Binary.ofFloat x with
  | nan => exact ⟨fun _ => rfl, fun _ => rfl⟩
  | infinite => exact ⟨nofun, nofun⟩
  | finite negative m q =>
    refine ⟨fun hNaN => ?_, nofun⟩
    by_cases hZero : m = 0
    · rw [Binary.unpacked, dif_pos hZero] at hNaN
      cases hNaN
    · rw [Binary.unpacked, dif_neg hZero] at hNaN
      cases hNaN

theorem beq_of_eq (hSame : x = y) (hNumber : Binary.ofFloat x ≠ .nan) : (x == y) = true := by
  subst hSame
  have hNotNaN : x ≠ Float.nan := by
    rintro rfl
    exact hNumber (by decide +kernel)
  exact Float.beq_iff_ne_nan_and_eq.mpr ⟨hNotNaN, hNotNaN, Or.inl rfl⟩

theorem not_isInf_of_form (h : Binary.ofFloat x = .finite negative m q) (hPos : 0 < m) :
    x.isInf = false := by
  have hUnpacked : x.isInf = (Binary.ofFloat x).unpacked.isInf := by
    rw [← Binary.unpack_eq]
    rfl
  rw [hUnpacked, h, Binary.unpacked, dif_neg (Nat.ne_of_gt hPos)]
  rfl

theorem ne_zero_of_form (h : Binary.ofFloat x = .finite negative m q) (hPos : 0 < m) :
    (x == 0) = false := by
  rw [Bool.eq_false_iff]
  intro hSame
  rcases (Float.beq_iff_ne_nan_and_eq.mp hSame).2.2 with rfl | ⟨rfl, -⟩ | ⟨rfl, -⟩
  · obtain ⟨-, rfl, -⟩ := Binary.finite.inj (h.symm.trans ofFloat_zero)
    exact lt_irrefl 0 hPos
  · obtain ⟨-, rfl, -⟩ := Binary.finite.inj (h.symm.trans ofFloat_zero)
    exact lt_irrefl 0 hPos
  · obtain ⟨-, rfl, -⟩ := Binary.finite.inj (h.symm.trans ofFloat_negZero)
    exact lt_irrefl 0 hPos

end Kinds

-- ----------------------------------------------------------------------------
-- Bounds
-- ----------------------------------------------------------------------------

namespace Binary

section Bounds

variable {x : Float} {negative : Bool} {m m' : Nat} {q q' : Int} {tie : Tie}

theorem shortest_coefficient_pos (h : InFormat m q) (hPos : 0 < m) :
    0 < (shortest tie m q).coefficient := by
  have hTrimmed := (shortest_spec tie h hPos).trimmed
  omega

/-- Below a number whose decimal is a power of ten are the numbers whose decimals are. -/
theorem less_iff_scientific_lt (h : InFormat m q) (hPos : 0 < m) (h' : InFormat m' q')
    (hPos' : 0 < m') {k : Int} (hPower : shortest tie m' q' = ⟨1, k⟩) :
    Less m q m' q' ↔ (shortest tie m q).scientific < k := by
  have hReads := (shortest_spec tie h hPos).reads
  have hReads' := (shortest_spec tie h' hPos').reads
  have hValue : (Decimal.mk 1 k).value = 10 ^ k := by
    rw [Decimal.value, Nat.cast_one, one_mul]
  rw [hPower, hValue] at hReads'
  rw [Decimal.scientific_lt_iff (shortest_coefficient_pos h hPos)]
  constructor
  · intro hLess
    exact hReads.lt_of_less h.toCanonical h'.toCanonical hLess hReads'
  · intro hBelow
    rcases less_trichotomy m q m' q' with hLess | ⟨rfl, rfl⟩ | hLess
    · exact hLess
    · rw [hPower, hValue] at hBelow
      exact absurd hBelow (lt_irrefl _)
    · have hAbove := hReads'.lt_of_less h'.toCanonical h.toCanonical hLess hReads
      exact absurd hBelow (lt_asymm hAbove)

/-- **The bounds between the notations**, asked of the number and of its decimal. -/
theorem between_bounds_iff (h : ofFloat x = .finite negative m q) (hPos : 0 < m) :
    (1e-6 ≤ x.abs ∧ x.abs < 1e21) ↔
      -6 ≤ (shortest .up m q).scientific ∧ (shortest .up m q).scientific < 21 := by
  have hLower : ofFloat 1e-6 = .finite false 0x10C6F7A0B5ED8D (-72) := by decide +kernel
  have hUpper : ofFloat 1e21 = .finite false 0x1B1AE4D6E2EF50 17 := by decide +kernel
  have hForm := inFormat_of_ofFloat h
  have hMillionth := less_iff_scientific_lt hForm hPos (inFormat_of_ofFloat hLower) (by decide)
    (by decide +kernel : shortest .up 0x10C6F7A0B5ED8D (-72) = ⟨1, -6⟩)
  have hLarge := less_iff_scientific_lt hForm hPos (inFormat_of_ofFloat hUpper) (by decide)
    (by decide +kernel : shortest .up 0x1B1AE4D6E2EF50 17 = ⟨1, 21⟩)
  rw [le_abs_iff h hPos hLower (by decide), abs_lt_iff h hPos hUpper (by decide), hMillionth,
    hLarge, not_lt]

end Bounds

end Binary

-- ----------------------------------------------------------------------------
-- What is written
-- ----------------------------------------------------------------------------

section Writing

variable {x : Float} {negative : Bool} {m : Nat} {q : Int}

theorem toList_sign (negative : Bool) :
    (if negative then "-" else "").toList = (if negative then SignMark.minus else .none).chars := by
  cases negative <;> rfl

theorem positional_iff (e : Int) : Layout.value.positional e = true ↔ -6 ≤ e ∧ e < 21 := by
  simp [Layout.value]

theorem text_of_form (h : Binary.ofFloat x = .finite negative m q) (hPos : 0 < m) :
    (Value.number x).text =
      (if negative then "-" else "") ++ Layout.value.decimalText (Binary.shortest .up m q) := by
  change Layout.value.write x = _
  unfold Layout.write
  rw [h]
  dsimp only
  rw [if_neg (Nat.ne_of_gt hPos)]
  rfl

/-- The numbers that are not finite, and their texts. -/
def specialTexts : List (Binary × String) :=
  [(.nan, "NaN"), (.infinite false, "Infinity"), (.infinite true, "-Infinity")]

theorem text_cases (x : Float) : (∃ negative m q, Binary.ofFloat x = .finite negative m q) ∨
    (Binary.ofFloat x, (Value.number x).text) ∈ specialTexts := by
  change _ ∨ (Binary.ofFloat x, Layout.value.write x) ∈ specialTexts
  unfold Layout.write
  cases Binary.ofFloat x with
  | nan => exact Or.inr (by decide)
  | infinite negative =>
    cases negative
    · exact Or.inr (by decide)
    · exact Or.inr (by decide)
  | finite negative m q => exact Or.inl ⟨negative, m, q, rfl⟩

end Writing

-- ----------------------------------------------------------------------------
-- Signs of exponents
-- ----------------------------------------------------------------------------

/-- Puts a plus behind the first `e`, if no minus stands there. -/
def markExponent (cs : List Char) : List Char :=
  match cs.dropWhile (· != 'e') with
  | 'e' :: '-' :: _ => cs
  | 'e' :: exponent => cs.takeWhile (· != 'e') ++ 'e' :: '+' :: exponent
  | _ => cs

/-- Scientific notation of `d`, with a sign at negative exponents only. -/
def Decimal.lowerExp (d : Decimal) : List Char :=
  d.digits.take 1 ++ DecimalNumeral.tail (d.digits.drop 1) (some (Layout.power .none d.scientific))

section Signs

variable {front rest : List Char}

theorem split_exponent (h : ∀ c ∈ front, (c != 'e') = true) :
    (front ++ 'e' :: rest).takeWhile (· != 'e') = front ∧
      (front ++ 'e' :: rest).dropWhile (· != 'e') = 'e' :: rest := by
  refine span_of_head h fun c hc => ?_
  obtain rfl : 'e' = c := Option.some.inj hc
  rfl

theorem markExponent_minus (h : ∀ c ∈ front, (c != 'e') = true) :
    markExponent (front ++ 'e' :: '-' :: rest) = front ++ 'e' :: '-' :: rest := by
  unfold markExponent
  rw [(split_exponent h).2]
  rfl

theorem markExponent_digits (h : ∀ c ∈ front, (c != 'e') = true) (hDigits : Digits rest) :
    markExponent (front ++ 'e' :: rest) = front ++ 'e' :: '+' :: rest := by
  obtain ⟨c, cs, rfl⟩ := List.exists_cons_of_ne_nil hDigits.1
  have hMinus : c ≠ '-' := by
    rintro rfl
    exact absurd (hDigits.2 '-' List.mem_cons_self) (by decide)
  unfold markExponent
  rw [(split_exponent h).2, (split_exponent h).1]
  split
  · rename_i hSplit
    exact absurd (List.cons.inj (List.cons.inj hSplit).2).1 hMinus
  · rename_i hSplit
    rw [(List.cons.inj hSplit).2]
  · rename_i hNot
    exact absurd rfl (hNot _)

theorem ne_e_of_isDigit {c : Char} (h : c.isDigit = true) : (c != 'e') = true := by
  rw [bne_iff_ne]
  rintro rfl
  exact absurd h (by decide)

/-- What stands in front of an exponent has no `e`. -/
theorem ne_e_of_mem_mantissa (s : SignMark) {x : Char} {ys : List Char} (h : Digits (x :: ys)) :
    ∀ c ∈ s.chars ++ x :: (if ys = [] then [] else '.' :: ys), (c != 'e') = true := by
  have hSign : ∀ c ∈ s.chars, (c != 'e') = true := by
    cases s with
    | none => nofun
    | plus => exact List.forall_mem_singleton.mpr rfl
    | minus => exact List.forall_mem_singleton.mpr rfl
  have hDigits : ∀ c ∈ x :: ys, (c != 'e') = true := fun c hc => ne_e_of_isDigit (h.2 c hc)
  refine List.forall_mem_append.mpr ⟨hSign, List.forall_mem_cons.mpr ⟨?_, ?_⟩⟩
  · exact hDigits x List.mem_cons_self
  · split
    · nofun
    · exact List.forall_mem_cons.mpr ⟨rfl, (List.forall_mem_cons.mp hDigits).2⟩

/-- **Signs are put at exponents by splitting the text.** -/
theorem markExponent_lowerExp (s : SignMark) (d : Decimal) :
    markExponent (s.chars ++ d.lowerExp) = s.chars ++ (Layout.scientificText d).toList := by
  have hDigits : Digits d.digits := digits_toDigits d.coefficient
  have hPower := digits_toDigits d.scientific.natAbs
  obtain ⟨x, ys, hSplit⟩ := List.exists_cons_of_ne_nil hDigits.1
  rw [hSplit] at hDigits
  have hFront := ne_e_of_mem_mantissa s hDigits
  have hTail (p : Power) : s.chars ++ x :: DecimalNumeral.tail ys (some p) =
      (s.chars ++ x :: (if ys = [] then [] else '.' :: ys)) ++ p.chars := by
    simp [DecimalNumeral.tail]
  have hPlain : s.chars ++ d.lowerExp =
      s.chars ++ x :: DecimalNumeral.tail ys (some (Layout.power .none d.scientific)) := by
    rw [Decimal.lowerExp, hSplit]
    rfl
  rw [hPlain, Layout.scientificText_toList d hSplit, hTail, hTail]
  unfold Layout.power Power.chars
  by_cases hNegative : d.scientific < 0
  · rw [if_pos hNegative, if_pos hNegative]
    exact markExponent_minus hFront
  · rw [if_neg hNegative, if_neg hNegative]
    exact markExponent_digits hFront hPower

end Signs

-- ----------------------------------------------------------------------------
-- Numbers
-- ----------------------------------------------------------------------------

/-- What a formatter makes of a finite number, with `write` for its decimal. -/
def formatFinite (write : Decimal → List Char) (x : Float) : List Char :=
  match Binary.ofFloat x with
  | .finite negative m q => (if negative then ['-'] else []) ++ write (Binary.shortest .up m q)
  | _ => []

/-- The text of a number, with the notation chosen by comparison. -/
def formatNumber (x : Float) : List Char :=
  if x.isNaN then "NaN".toList
  else if x.isInf then (if 0 < x then "Infinity" else "-Infinity").toList
  else if x == 0 then ['0']
  else if 1e-6 ≤ x.abs ∧ x.abs < 1e21 then
    formatFinite (fun d => (Layout.value.positionalText d).toList) x
  else markExponent (formatFinite Decimal.lowerExp x)

section Numbers

variable {x : Float} {negative : Bool} {m : Nat} {q : Int}

theorem formatNumber_of_zero (h : Binary.ofFloat x = .finite negative 0 q) :
    formatNumber x = (Value.number x).text.toList := by
  rcases eq_zero_of_form h with rfl | rfl <;> decide +kernel

theorem formatNumber_of_special (h : (Binary.ofFloat x, (Value.number x).text) ∈ specialTexts) :
    formatNumber x = (Value.number x).text.toList := by
  have hNaN : Binary.ofFloat (0 / 0) = .nan := by decide +kernel
  have hInfinity : Binary.ofFloat (1 / 0) = .infinite false := by decide +kernel
  have hNegative : Binary.ofFloat (-1 / 0) = .infinite true := by decide +kernel
  have hForm : Binary.ofFloat x = .nan ∨ Binary.ofFloat x = .infinite false ∨
      Binary.ofFloat x = .infinite true := by
    simp only [specialTexts, List.mem_cons, Prod.mk.injEq, List.not_mem_nil, or_false] at h
    exact h.imp And.left (Or.imp And.left And.left)
  rcases hForm with hForm | hForm | hForm
  · obtain rfl := Binary.ofFloat_injective (hForm.trans hNaN.symm)
    decide +kernel
  · obtain rfl := Binary.ofFloat_injective (hForm.trans hInfinity.symm)
    decide +kernel
  · obtain rfl := Binary.ofFloat_injective (hForm.trans hNegative.symm)
    decide +kernel

theorem formatNumber_of_finite (h : Binary.ofFloat x = .finite negative m q) (hPos : 0 < m) :
    formatNumber x = (Value.number x).text.toList := by
  have hNaN : ¬ x.isNaN = true := fun hNaN => nomatch h.symm.trans (isNaN_iff.mp hNaN)
  have hInf := not_isInf_of_form h hPos
  have hZero := ne_zero_of_form h hPos
  have hRange : Layout.value.positional (Binary.shortest .up m q).scientific = true ↔
      (1e-6 ≤ x.abs ∧ x.abs < 1e21) := by
    rw [Binary.between_bounds_iff h hPos]
    exact positional_iff _
  unfold formatNumber formatFinite
  rw [if_neg hNaN, hInf, if_neg Bool.false_ne_true, hZero, if_neg Bool.false_ne_true,
    text_of_form h hPos, String.toList_append, toList_sign, Layout.decimalText, h]
  dsimp only
  by_cases hInside : 1e-6 ≤ x.abs ∧ x.abs < 1e21
  · rw [if_pos hInside, if_pos (hRange.mpr hInside)]
    cases negative <;> rfl
  · rw [if_neg hInside, if_neg (mt hRange.mp hInside), ← markExponent_lowerExp]
    cases negative <;> rfl

/-- **Comparing numbers and splitting texts makes the text of a number.** -/
theorem text_eq_formatNumber (x : Float) : (Value.number x).text.toList = formatNumber x := by
  rcases text_cases x with ⟨negative, m, q, h⟩ | hSpecial
  · rcases Nat.eq_zero_or_pos m with rfl | hPos
    · exact (formatNumber_of_zero h).symm
    · exact (formatNumber_of_finite h hPos).symm
  · exact (formatNumber_of_special hSpecial).symm

end Numbers

end Zaban
