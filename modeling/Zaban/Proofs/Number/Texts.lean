import Mathlib
import Zaban.Proofs.Number.Formatting

/-!
# Numbers and their texts

The text of a finite number denotes its shortest decimal, with the sign of the
number (`text_denotes`). A decimal that is read as one number is read as no other
one, so numbers with the same text are the same number, or zeros with different
signs (`text_inj`). The texts of the other numbers have no digit.
-/

namespace Zaban

-- ----------------------------------------------------------------------------
-- Texts
-- ----------------------------------------------------------------------------

/-- The numeral `n` denotes `d` with a sign, in the notation that the exponent of `d` asks for. -/
structure Denotes (n : DecimalNumeral) (negative : Bool) (d : Decimal) : Prop where
  value      : n.value = if negative then -d.value else d.value
  positional : -6 ≤ d.scientific ∧ d.scientific < 21 → n.power = none
  scientific : d.scientific < -6 ∨ 21 ≤ d.scientific →
    ∃ p, n.power = some p ∧ p.sign ≠ .none ∧ p.value = d.scientific

section Texts

variable {x y : Float} {negative : Bool} {m : Nat} {q : Int}

theorem decimalText_denotes (negative : Bool) (d : Decimal) :
    ∃ n : DecimalNumeral,
      n.chars = ((if negative then "-" else "") ++ Layout.value.decimalText d).toList ∧
      Denotes n negative d := by
  have hFactor : (((if negative then SignMark.minus else .none).factor : Int) : ℚ) * d.value =
      if negative then -d.value else d.value := by
    cases negative <;> simp [SignMark.factor]
  rw [String.toList_append, toList_sign, Layout.decimalText]
  by_cases hRange : Layout.value.positional d.scientific = true
  · obtain ⟨n, hChars, hPower, hValue⟩ :=
      Layout.positionalText_denotes (l := Layout.value) (if negative then .minus else .none) d rfl
    rw [if_pos hRange]
    have hBounds := (positional_iff _).mp hRange
    exact ⟨n, hChars, hValue.trans hFactor, fun _ => hPower, fun hOutside => by omega⟩
  · obtain ⟨n, p, hChars, hPower, hSign, hExponent, hValue⟩ :=
      Layout.scientificText_denotes (if negative then .minus else .none) d
    rw [if_neg hRange]
    exact ⟨n, hChars, hValue.trans hFactor,
      fun hInside => absurd ((positional_iff _).mpr hInside) hRange,
      fun _ => ⟨p, hPower, hSign, hExponent⟩⟩

theorem text_denotes (h : Binary.ofFloat x = .finite negative m q) (hPos : 0 < m) :
    ∃ n : DecimalNumeral, n.chars = (Value.number x).text.toList ∧
      Denotes n negative (Binary.shortest .up m q) := by
  rw [text_of_form h hPos]
  exact decimalText_denotes _ _

/-- The text of a zero denotes zero. -/
theorem text_of_zero (h : Binary.ofFloat x = .finite negative 0 q) :
    ∃ n : DecimalNumeral, n.chars = (Value.number x).text.toList ∧ n.value = 0 := by
  have hDigits : Nat.ofDigitChars 10 (['0'] ++ []) 0 = 0 := by decide +kernel
  refine ⟨⟨.none, ['0'], [], none, digits_zero, nofun⟩, ?_, ?_⟩
  · rcases eq_zero_of_form h with rfl | rfl <;> decide +kernel
  · rw [DecimalNumeral.value, hDigits, Nat.cast_zero, mul_zero, zero_mul]

/-- A numeral has a digit. -/
theorem not_special (n : DecimalNumeral) : ∀ w ∈ specialTexts, w.2.toList ≠ n.chars := by
  have hNone : ∀ w ∈ specialTexts, ∀ c ∈ w.2.toList, c.isDigit = false := by
    simp [specialTexts]
  intro w hw hSame
  obtain ⟨c, cs, hWhole⟩ := List.exists_cons_of_ne_nil n.whole_digits.1
  have hDigit := n.whole_digits.2 c (by rw [hWhole]; exact List.mem_cons_self)
  have hMem : c ∈ w.2.toList := by
    rw [hSame, DecimalNumeral.chars, hWhole]
    simp
  rw [hNone w hw c hMem] at hDigit
  cases hDigit

theorem specialTexts_inj : ∀ w ∈ specialTexts, ∀ w' ∈ specialTexts, w.2 = w'.2 → w.1 = w'.1 := by
  decide

/-- A finite number has the text of a numeral that denotes it up to rounding, or exactly if it is
zero. -/
theorem finite_text (h : Binary.ofFloat x = .finite negative m q) :
    ∃ n : DecimalNumeral, n.chars = (Value.number x).text.toList ∧
      (m = 0 ∧ n.value = 0 ∨ 0 < m ∧ Denotes n negative (Binary.shortest .up m q)) := by
  rcases Nat.eq_zero_or_pos m with rfl | hPos
  · obtain ⟨n, hChars, hValue⟩ := text_of_zero h
    exact ⟨n, hChars, Or.inl ⟨rfl, hValue⟩⟩
  · obtain ⟨n, hChars, hDenotes⟩ := text_denotes h hPos
    exact ⟨n, hChars, Or.inr ⟨hPos, hDenotes⟩⟩

theorem shortest_value_pos (h : Binary.InFormat m q) (hPos : 0 < m) :
    0 < (Binary.shortest .up m q).value :=
  lt_of_lt_of_le (by positivity) (Decimal.le_value (Binary.shortest_coefficient_pos h hPos))

theorem Denotes.value_ne_zero {n : DecimalNumeral} (h : Binary.InFormat m q) (hPos : 0 < m)
    (hDenotes : Denotes n negative (Binary.shortest .up m q)) : n.value ≠ 0 := by
  have hValue := shortest_value_pos h hPos
  rw [hDenotes.value]
  cases negative
  · exact hValue.ne'
  · exact (neg_neg_of_pos hValue).ne

/-- What a text denotes tells the form of the number. -/
theorem form_eq_of_denotes {n : DecimalNumeral} {negative' : Bool} {m' : Nat} {q' : Int}
    (h : Binary.InFormat m q) (h' : Binary.InFormat m' q') (hPos : 0 < m) (hPos' : 0 < m')
    (hDenotes : Denotes n negative (Binary.shortest .up m q))
    (hDenotes' : Denotes n negative' (Binary.shortest .up m' q')) :
    negative = negative' ∧ m = m' ∧ q = q' := by
  have hReads := (Binary.shortest_spec .up h hPos).reads
  have hReads' := (Binary.shortest_spec .up h' hPos').reads
  have hValue := shortest_value_pos h hPos
  have hValue' := shortest_value_pos h' hPos'
  have hSame := hDenotes.value.symm.trans hDenotes'.value
  have hUnique (hEq : (Binary.shortest .up m q).value = (Binary.shortest .up m' q').value) :
      m = m' ∧ q = q' := by
    rw [← hEq] at hReads'
    exact hReads.unique h.toCanonical h'.toCanonical hReads'
  cases negative <;> cases negative'
  case false.false => exact ⟨rfl, hUnique hSame⟩
  case true.true => exact ⟨rfl, hUnique (neg_injective hSame)⟩
  case false.true =>
    rw [if_neg Bool.false_ne_true, if_pos rfl] at hSame
    linarith
  case true.false =>
    rw [if_neg Bool.false_ne_true, if_pos rfl] at hSame
    linarith

/-- Finite numbers with the same text are equal. -/
theorem beq_of_finite_text {negative' : Bool} {m' : Nat} {q' : Int}
    (h : Binary.ofFloat x = .finite negative m q) (h' : Binary.ofFloat y = .finite negative' m' q')
    (hText : (Value.number x).text = (Value.number y).text) : (x == y) = true := by
  have hForm := Binary.inFormat_of_ofFloat h
  have hForm' := Binary.inFormat_of_ofFloat h'
  obtain ⟨n, hChars, hValue⟩ := finite_text h
  obtain ⟨n', hChars', hValue'⟩ := finite_text h'
  rw [← hText, ← hChars] at hChars'
  obtain rfl := DecimalNumeral.chars_injective hChars'
  rcases hValue with ⟨rfl, hZero⟩ | ⟨hPos, hDenotes⟩
  · rcases hValue' with ⟨rfl, -⟩ | ⟨hPos', hDenotes'⟩
    · -- two zeros are equal, whatever their signs
      rcases eq_zero_of_form h with rfl | rfl <;> rcases eq_zero_of_form h' with rfl | rfl <;>
        decide +kernel
    · exact absurd hZero (hDenotes'.value_ne_zero hForm' hPos')
  · rcases hValue' with ⟨rfl, hZero⟩ | ⟨hPos', hDenotes'⟩
    · exact absurd hZero (hDenotes.value_ne_zero hForm hPos)
    · obtain ⟨rfl, rfl, rfl⟩ := form_eq_of_denotes hForm hForm' hPos hPos' hDenotes hDenotes'
      refine beq_of_eq (Binary.ofFloat_injective (h.trans h'.symm)) ?_
      rw [h]
      exact nofun

/-- **The text of a number tells the number**, up to the sign of zero. -/
theorem text_inj (hText : (Value.number x).text = (Value.number y).text) :
    (x == y) = true ∨ x.isNaN = true ∧ y.isNaN = true := by
  rcases text_cases x with ⟨negative, m, q, h⟩ | hSpecial
  · rcases text_cases y with ⟨negative', m', q', h'⟩ | hSpecial'
    · exact Or.inl (beq_of_finite_text h h' hText)
    · obtain ⟨n, hChars, -⟩ := finite_text h
      exact absurd (hText ▸ hChars).symm (not_special n _ hSpecial')
  · rcases text_cases y with ⟨negative', m', q', h'⟩ | hSpecial'
    · obtain ⟨n', hChars', -⟩ := finite_text h'
      exact absurd (hText ▸ hChars').symm (not_special n' _ hSpecial)
    · have hSame := specialTexts_inj _ hSpecial _ hSpecial' hText
      by_cases hNaN : Binary.ofFloat x = .nan
      · exact Or.inr ⟨isNaN_iff.mpr hNaN, isNaN_iff.mpr (hSame.symm.trans hNaN)⟩
      · exact Or.inl (beq_of_eq (Binary.ofFloat_injective hSame) hNaN)

/-- Equal numbers have the same text. -/
theorem text_eq_of_beq (hSame : (x == y) = true) :
    (Value.number x).text = (Value.number y).text := by
  rcases (Float.beq_iff_ne_nan_and_eq.mp hSame).2.2 with rfl | ⟨rfl, rfl⟩ | ⟨rfl, rfl⟩
  · rfl
  · decide +kernel
  · decide +kernel

theorem text_eq_of_isNaN (hx : x.isNaN = true) (hy : y.isNaN = true) :
    (Value.number x).text = (Value.number y).text := by
  have hSame := Binary.ofFloat_injective ((isNaN_iff.mp hx).trans (isNaN_iff.mp hy).symm)
  rw [hSame]

end Texts

/-- **The text of a number identifies it.** The text is made by comparing the number and splitting
texts. A finite number other than zero is written as its shortest decimal, with an exponent, which
has a sign, exactly if that of the decimal is out of bounds. Numbers have the same text exactly if
they are equal or both are not numbers. -/
theorem number_texts_identify_numbers :
    (∀ x : Float, (Value.number x).text.toList = formatNumber x) ∧
    (∀ x : Float, x.isFinite = true → (x == 0) = false → ∃ negative m q,
      Binary.ofFloat x = .finite negative m q ∧
      Binary.IsShortest m q (Binary.shortest .up m q) ∧
      ((1e-6 ≤ x.abs ∧ x.abs < 1e21) ↔
        -6 ≤ (Binary.shortest .up m q).scientific ∧ (Binary.shortest .up m q).scientific < 21) ∧
      ∃ n : DecimalNumeral,
        (∀ n' : DecimalNumeral, n'.chars = (Value.number x).text.toList ↔ n' = n) ∧
        Denotes n negative (Binary.shortest .up m q)) ∧
    ∀ x y : Float, (Value.number x).text = (Value.number y).text ↔
      (x == y) = true ∨ x.isNaN = true ∧ y.isNaN = true := by
  refine ⟨text_eq_formatNumber, fun x hFinite hNonzero => ?_, fun x y => ⟨text_inj, ?_⟩⟩
  · obtain ⟨negative, m, q, h⟩ := exists_form_of_isFinite hFinite
    have hPos := significand_pos h hNonzero
    obtain ⟨n, hChars, hDenotes⟩ := text_denotes h hPos
    refine ⟨negative, m, q, h, Binary.shortest_spec .up (Binary.inFormat_of_ofFloat h) hPos,
      Binary.between_bounds_iff h hPos, n, fun n' => ⟨fun hChars' => ?_, ?_⟩, hDenotes⟩
    · exact DecimalNumeral.chars_injective (hChars'.trans hChars.symm)
    · rintro rfl
      exact hChars
  · rintro (hSame | ⟨hx, hy⟩)
    · exact text_eq_of_beq hSame
    · exact text_eq_of_isNaN hx hy

theorem number_texts_identify_numbers_small :
    Float.isFinite (-1.5e-7) = true ∧ ((-1.5e-7 : Float) == 0) = false ∧
    ∃ n : DecimalNumeral, (∀ n' : DecimalNumeral, n'.chars = "-1.5e-7".toList ↔ n' = n) ∧
      Denotes n true ⟨15, -8⟩ := by
  have hFinite : Float.isFinite (-1.5e-7) = true := by decide +kernel
  have hNonzero : ((-1.5e-7 : Float) == 0) = false := by decide +kernel
  obtain ⟨negative, m, q, h, -, -, n, hText, hDenotes⟩ :=
    number_texts_identify_numbers.2.1 (-1.5e-7) hFinite hNonzero
  have hForm : Binary.ofFloat (-1.5e-7) = .finite true 0x1421F5F40D8376 (-75) := by decide +kernel
  have hShortest : Binary.shortest .up 0x1421F5F40D8376 (-75) = ⟨15, -8⟩ := by decide +kernel
  have hSpelled : (Value.number (-1.5e-7)).text = "-1.5e-7" := by decide +kernel
  obtain ⟨rfl, rfl, rfl⟩ := Binary.finite.inj (h.symm.trans hForm)
  rw [hShortest] at hDenotes
  rw [hSpelled] at hText
  exact ⟨hFinite, hNonzero, n, hText, hDenotes⟩

end Zaban
