import Mathlib
import Zaban.Number.Layout
import Zaban.Proofs.Number.Shortest

/-!
# Decimal numerals

A decimal numeral is a sign or none, digits, a point with more digits or none, and
an exponent or none, which may have a sign of its own (`DecimalNumeral`). A text
is the text of one numeral at most (`DecimalNumeral.chars_injective`), so it
denotes one rational number at most.

Both notations of a decimal are texts of numerals that denote the decimal
(`positionalText_denotes`, `scientificText_denotes`). One has no exponent, and the
other has an exponent with a sign.
-/

namespace Zaban

-- ----------------------------------------------------------------------------
-- Digits
-- ----------------------------------------------------------------------------

/-- Digits, one at least. -/
def Digits (ds : List Char) : Prop :=
  ds ≠ [] ∧ ∀ c ∈ ds, c.isDigit = true

theorem digits_toDigits (n : Nat) : Digits (Nat.toDigits 10 n) :=
  ⟨Nat.toDigits_ne_nil, fun _ hc => Nat.isDigit_of_mem_toDigits (by decide) (by decide) hc⟩

theorem digits_zero : Digits ['0'] :=
  ⟨List.cons_ne_nil _ _, List.forall_mem_singleton.mpr rfl⟩

theorem Digits.append {cs ds : List Char} (h : Digits cs) (h' : ∀ c ∈ ds, c.isDigit = true) :
    Digits (cs ++ ds) :=
  ⟨by simp [h.1], List.forall_mem_append.mpr ⟨h.2, h'⟩⟩

theorem isDigit_replicate (k : Nat) : ∀ c ∈ List.replicate k '0', c.isDigit = true := by
  intro c hc
  rw [List.eq_of_mem_replicate hc]
  decide

/-- What is in front of the first character that is not taken, and what begins with it. -/
theorem span_of_head {p : Char → Bool} {xs ys : List Char} (h : ∀ c ∈ xs, p c = true)
    (hHead : ∀ c ∈ ys.head?, p c = false) :
    (xs ++ ys).takeWhile p = xs ∧ (xs ++ ys).dropWhile p = ys := by
  rw [List.takeWhile_append_of_pos h, List.dropWhile_append_of_pos h]
  cases ys with
  | nil => simp
  | cons c cs =>
    have hNot := hHead c rfl
    simp [hNot]

theorem append_inj_of_head (p : Char → Bool) {xs xs' ys ys' : List Char}
    (h : ∀ c ∈ xs, p c = true) (h' : ∀ c ∈ xs', p c = true) (hHead : ∀ c ∈ ys.head?, p c = false)
    (hHead' : ∀ c ∈ ys'.head?, p c = false) (hSame : xs ++ ys = xs' ++ ys') :
    xs = xs' ∧ ys = ys' := by
  have hSplit := span_of_head h hHead
  have hSplit' := span_of_head h' hHead'
  rw [hSame] at hSplit
  exact ⟨hSplit.1.symm.trans hSplit'.1, hSplit.2.symm.trans hSplit'.2⟩

theorem Digits.head_isDigit {ds : List Char} (h : Digits ds) (rest : List Char) :
    ∀ c ∈ (ds ++ rest).head?, (!c.isDigit) = false := by
  obtain ⟨hSome, hAll⟩ := h
  cases ds with
  | nil => exact absurd rfl hSome
  | cons d ds =>
    intro c hc
    obtain rfl : d = c := Option.some.inj hc
    rw [hAll d List.mem_cons_self]
    rfl

-- ----------------------------------------------------------------------------
-- Numerals
-- ----------------------------------------------------------------------------

/-- What stands in front of digits. -/
inductive SignMark where
  | none
  | plus
  | minus
deriving DecidableEq

namespace SignMark

def chars : SignMark → List Char
  | none => []
  | plus => ['+']
  | minus => ['-']

def factor : SignMark → Int
  | none | plus => 1
  | minus => -1

theorem not_isDigit_of_mem_chars {s : SignMark} : ∀ c ∈ s.chars, (!c.isDigit) = true := by
  cases s with
  | none => nofun
  | plus => exact List.forall_mem_singleton.mpr rfl
  | minus => exact List.forall_mem_singleton.mpr rfl

theorem chars_inj {s s' : SignMark} : s.chars = s'.chars ↔ s = s' := by
  cases s <;> cases s' <;> decide

theorem append_inj {s s' : SignMark} {ds ds' rest rest' : List Char} (h : Digits ds)
    (h' : Digits ds') (hSame : s.chars ++ (ds ++ rest) = s'.chars ++ (ds' ++ rest')) :
    s = s' ∧ ds ++ rest = ds' ++ rest' := by
  obtain ⟨hSign, hRest⟩ := append_inj_of_head (fun c => !c.isDigit) not_isDigit_of_mem_chars
    not_isDigit_of_mem_chars (h.head_isDigit rest) (h'.head_isDigit rest') hSame
  exact ⟨chars_inj.mp hSign, hRest⟩

end SignMark

/-- The exponent of a numeral. -/
structure Power where
  sign : SignMark
  digits : List Char
  wellFormed : Digits digits

namespace Power

def chars (p : Power) : List Char :=
  'e' :: (p.sign.chars ++ p.digits)

def value (p : Power) : Int :=
  p.sign.factor * Nat.ofDigitChars 10 p.digits 0

theorem chars_injective : Function.Injective chars := by
  rintro ⟨s, ds, h⟩ ⟨s', ds', h'⟩ hSame
  have hTail : s.chars ++ ds = s'.chars ++ ds' := (List.cons.inj hSame).2
  rw [← List.append_nil ds, ← List.append_nil ds'] at hTail
  obtain ⟨rfl, hDigits⟩ := SignMark.append_inj h h' hTail
  rw [List.append_nil, List.append_nil] at hDigits
  subst hDigits
  rfl

end Power

/-- A decimal numeral: its sign, the digits before and behind the point, and its exponent. A point
stands in front of digits only. -/
structure DecimalNumeral where
  sign : SignMark
  whole : List Char
  fraction : List Char
  power : Option Power
  whole_digits : Digits whole
  fraction_digits : ∀ c ∈ fraction, c.isDigit = true

namespace DecimalNumeral

/-- The text of a numeral behind its whole part. -/
def tail (fraction : List Char) (power : Option Power) : List Char :=
  (if fraction = [] then [] else '.' :: fraction) ++ power.elim [] Power.chars

/-- The text of a numeral. -/
def chars (n : DecimalNumeral) : List Char :=
  n.sign.chars ++ (n.whole ++ tail n.fraction n.power)

/-- The number that a numeral denotes. -/
def value (n : DecimalNumeral) : ℚ :=
  n.sign.factor * Nat.ofDigitChars 10 (n.whole ++ n.fraction) 0 *
    10 ^ (n.power.elim 0 Power.value - n.fraction.length)

theorem head_power_not_isDigit (power : Option Power) :
    ∀ c ∈ (power.elim [] Power.chars).head?, c.isDigit = false := by
  cases power with
  | none => nofun
  | some p =>
    intro c hc
    obtain rfl : 'e' = c := Option.some.inj hc
    rfl

theorem head_tail_not_isDigit (fraction : List Char) (power : Option Power) :
    ∀ c ∈ (tail fraction power).head?, c.isDigit = false := by
  cases fraction with
  | nil => exact head_power_not_isDigit power
  | cons d ds =>
    intro c hc
    obtain rfl : '.' = c := Option.some.inj hc
    rfl

theorem power_inj {power power' : Option Power}
    (hSame : power.elim [] Power.chars = power'.elim [] Power.chars) : power = power' := by
  cases power <;> cases power'
  case none.none => rfl
  case none.some => cases hSame
  case some.none => cases hSame
  case some.some => rw [Power.chars_injective hSame]

theorem tail_inj {fraction fraction' : List Char} {power power' : Option Power}
    (h : ∀ c ∈ fraction, c.isDigit = true) (h' : ∀ c ∈ fraction', c.isDigit = true)
    (hSame : tail fraction power = tail fraction' power') :
    fraction = fraction' ∧ power = power' := by
  cases fraction <;> cases fraction'
  case nil.nil => exact ⟨rfl, power_inj hSame⟩
  case nil.cons d ds =>
    -- no exponent begins with a point
    cases power <;> cases hSame
  case cons.nil d ds => cases power' <;> cases hSame
  case cons.cons d ds d' ds' =>
    obtain ⟨hFraction, hPower⟩ := append_inj_of_head Char.isDigit h h' (head_power_not_isDigit _)
      (head_power_not_isDigit _) (List.cons.inj hSame).2
    exact ⟨hFraction, power_inj hPower⟩

/-- **A text is the text of one numeral at most.** -/
theorem chars_injective : Function.Injective chars := by
  rintro ⟨sign, whole, fraction, power, hWhole, hFraction⟩
    ⟨sign', whole', fraction', power', hWhole', hFraction'⟩ hSame
  obtain ⟨rfl, hUnsigned⟩ := SignMark.append_inj hWhole hWhole' hSame
  obtain ⟨rfl, hTail⟩ := append_inj_of_head Char.isDigit hWhole.2 hWhole'.2
    (head_tail_not_isDigit _ _) (head_tail_not_isDigit _ _) hUnsigned
  obtain ⟨rfl, rfl⟩ := tail_inj hFraction hFraction' hTail
  rfl

end DecimalNumeral

-- ----------------------------------------------------------------------------
-- Notations of a decimal
-- ----------------------------------------------------------------------------

namespace Layout

variable {l : Layout} (s : SignMark) (d : Decimal)

/-- A numeral without an exponent denotes `d` if it has the digits of `d`, with zeros in front of
them, and as many of them behind the point as places of `d` are. -/
theorem value_of_fraction {whole fraction : List Char} {hWhole : Digits whole}
    {hFraction : ∀ c ∈ fraction, c.isDigit = true}
    (hDigits : Nat.ofDigitChars 10 (whole ++ fraction) 0 = d.coefficient)
    (hPlaces : (fraction.length : Int) = -d.exponent) :
    (DecimalNumeral.mk s whole fraction none hWhole hFraction).value = s.factor * d.value := by
  have hExponent : (0 : Int) - fraction.length = d.exponent := by omega
  change (s.factor : ℚ) * Nat.ofDigitChars 10 (whole ++ fraction) 0 *
    10 ^ ((0 : Int) - fraction.length) = _
  rw [hDigits, hExponent, Decimal.value, mul_assoc]

theorem ofDigitChars_digits (d : Decimal) : Nat.ofDigitChars 10 d.digits 0 = d.coefficient :=
  Nat.ofDigitChars_ten_toDigits

/-- Zeros stand between the point and the digits. -/
theorem smallText_denotes (hSmall : d.scientific < 0) : ∃ n : DecimalNumeral,
    n.chars = s.chars ++
      '0' :: '.' :: (List.replicate (-d.scientific - 1).toNat '0' ++ d.digits) ∧
    n.power = none ∧ n.value = s.factor * d.value := by
  have hDigits : Digits d.digits := digits_toDigits d.coefficient
  have hScientific : d.scientific = d.exponent + d.digits.length - 1 := rfl
  refine ⟨⟨s, ['0'], List.replicate (-d.scientific - 1).toNat '0' ++ d.digits, none, digits_zero,
    List.forall_mem_append.mpr ⟨isDigit_replicate _, hDigits.2⟩⟩, ?_, rfl, ?_⟩
  · simp [DecimalNumeral.chars, DecimalNumeral.tail, hDigits.1]
  · refine value_of_fraction s d ?_ ?_
    · rw [Nat.ofDigitChars_append, Nat.ofDigitChars_append, Nat.ofDigitChars_replicate_zero]
      exact ofDigitChars_digits d
    · rw [List.length_append, List.length_replicate]
      omega

/-- The point stands between digits. -/
theorem fractionText_denotes (hLarge : ¬ d.scientific < 0) (hFraction : d.exponent < 0) :
    ∃ n : DecimalNumeral,
      n.chars = s.chars ++ (d.digits.take (d.scientific + 1).toNat ++
        '.' :: d.digits.drop (d.scientific + 1).toNat) ∧
      n.power = none ∧ n.value = s.factor * d.value := by
  have hDigits : Digits d.digits := digits_toDigits d.coefficient
  have hLength := d.digits_length_pos
  have hScientific : d.scientific = d.exponent + d.digits.length - 1 := rfl
  have hTake : Digits (d.digits.take (d.scientific + 1).toNat) := by
    refine ⟨?_, fun c hc => hDigits.2 c (List.mem_of_mem_take hc)⟩
    rw [← List.length_pos_iff, List.length_take]
    omega
  have hDrop : d.digits.drop (d.scientific + 1).toNat ≠ [] := by
    rw [← List.length_pos_iff, List.length_drop]
    omega
  refine ⟨⟨s, _, d.digits.drop (d.scientific + 1).toNat, none, hTake,
    fun c hc => hDigits.2 c (List.mem_of_mem_drop hc)⟩, ?_, rfl, ?_⟩
  · simp [DecimalNumeral.chars, DecimalNumeral.tail, hDrop]
  · refine value_of_fraction s d ?_ ?_
    · rw [List.take_append_drop]
      exact ofDigitChars_digits d
    · rw [List.length_drop]
      omega

/-- Zeros stand behind the digits, and there is no point. -/
theorem wholeText_denotes (hWhole : ¬ d.exponent < 0) : ∃ n : DecimalNumeral,
    n.chars = s.chars ++ (d.digits ++ List.replicate d.exponent.toNat '0') ∧
    n.power = none ∧ n.value = s.factor * d.value := by
  have hDigits : Digits d.digits := digits_toDigits d.coefficient
  have hPower : (10 : ℚ) ^ d.exponent = 10 ^ d.exponent.toNat := by
    rw [← zpow_natCast, Int.toNat_of_nonneg (by omega)]
  refine ⟨⟨s, d.digits ++ List.replicate d.exponent.toNat '0', [], none,
    hDigits.append (isDigit_replicate _), nofun⟩, ?_, rfl, ?_⟩
  · simp [DecimalNumeral.chars, DecimalNumeral.tail]
  · change (s.factor : ℚ) * Nat.ofDigitChars 10 (d.digits ++ _ ++ []) 0 * 10 ^ ((0 : Int) - 0) = _
    rw [List.append_nil, Nat.ofDigitChars_append, Nat.ofDigitChars_replicate_zero,
      ofDigitChars_digits, Decimal.value, hPower]
    push_cast
    ring

theorem positionalText_denotes (hEnd : l.wholeEnd = "") : ∃ n : DecimalNumeral,
    n.chars = s.chars ++ (l.positionalText d).toList ∧ n.power = none ∧
    n.value = s.factor * d.value := by
  unfold positionalText
  dsimp only
  by_cases hSmall : d.scientific < 0
  · simp only [if_pos hSmall, String.toList_append, String.toList_ofList]
    exact smallText_denotes s d hSmall
  rw [if_neg hSmall]
  by_cases hFraction : d.exponent < 0
  · simp only [if_pos hFraction, String.append_assoc, String.toList_append, String.toList_ofList]
    exact fractionText_denotes s d hSmall hFraction
  · rw [if_neg hFraction, hEnd, String.append_empty, String.toList_ofList]
    exact wholeText_denotes s d hFraction

/-- The exponent `e`, with `mark` in front of it if it is not negative. -/
def power (mark : SignMark) (e : Int) : Power where
  sign := if e < 0 then .minus else mark
  digits := Nat.toDigits 10 e.natAbs
  wellFormed := digits_toDigits e.natAbs

theorem power_plus_sign_ne (e : Int) : (power .plus e).sign ≠ .none := by
  unfold power
  by_cases hNegative : e < 0
  · simp [hNegative]
  · simp [hNegative]

theorem value_power_plus (e : Int) : (power .plus e).value = e := by
  unfold power Power.value
  rw [Nat.ofDigitChars_ten_toDigits]
  by_cases hNegative : e < 0
  · rw [if_pos hNegative, SignMark.factor]
    omega
  · rw [if_neg hNegative, SignMark.factor]
    omega

theorem chars_power_plus (e : Int) :
    (power .plus e).chars = ((if e < 0 then "e-" else "e+") ++ toString e.natAbs).toList := by
  unfold power Power.chars
  by_cases hNegative : e < 0
  · simp [hNegative, SignMark.chars]
  · simp [hNegative, SignMark.chars]

theorem scientificText_toList {x : Char} {ys : List Char} (hSplit : d.digits = x :: ys) :
    (scientificText d).toList =
      x :: DecimalNumeral.tail ys (some (power .plus d.scientific)) := by
  unfold scientificText DecimalNumeral.tail
  dsimp only
  rw [hSplit, String.append_assoc, String.toList_append, ← chars_power_plus]
  cases ys with
  | nil => simp
  | cons y ys => simp

theorem scientificText_denotes :
    ∃ (n : DecimalNumeral) (p : Power), n.chars = s.chars ++ (scientificText d).toList ∧
      n.power = some p ∧ p.sign ≠ .none ∧ p.value = d.scientific ∧
      n.value = s.factor * d.value := by
  have hDigits : Digits d.digits := digits_toDigits d.coefficient
  obtain ⟨x, ys, hSplit⟩ := List.exists_cons_of_ne_nil hDigits.1
  have hText := scientificText_toList d hSplit
  have hLength : d.scientific = d.exponent + d.digits.length - 1 := rfl
  rw [hSplit] at hDigits hLength
  refine ⟨⟨s, [x], ys, some (power .plus d.scientific), ⟨List.cons_ne_nil _ _, ?_⟩, ?_⟩,
    power .plus d.scientific, ?_, rfl, power_plus_sign_ne _, value_power_plus _, ?_⟩
  · exact List.forall_mem_singleton.mpr (hDigits.2 x List.mem_cons_self)
  · exact fun c hc => hDigits.2 c (List.mem_cons_of_mem x hc)
  · rw [hText]
    rfl
  · have hPlaces : d.scientific - ys.length = d.exponent := by
      rw [List.length_cons] at hLength
      omega
    change (s.factor : ℚ) * Nat.ofDigitChars 10 (x :: ys) 0 *
      10 ^ ((power .plus d.scientific).value - ys.length) = _
    rw [value_power_plus, hPlaces, ← hSplit, ofDigitChars_digits, Decimal.value, mul_assoc]

end Layout

end Zaban
