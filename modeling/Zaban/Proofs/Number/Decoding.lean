import Mathlib
import Zaban.Number.Numeral
import Zaban.Proofs.Number.Numerals
import Zaban.Proofs.Number.Rounding
import Zaban.Proofs.Token.Vocabulary

/-!
# The value of a numeral is the nearest number

A numeral denotes a rational number, and its value is the number nearest to that,
the even one of two, and infinity if the nearest one has an exponent beyond the
format (`Binary.IsNearest`). There is one such number (`Binary.IsNearest.unique`),
so this says what the value is (`Numeral.value_isNearest`, `Numeral.eq_value_iff`),
and with it what a word of the class of numerals means
(`WordClass.means_numeral_iff`).

The value is a quotient of a natural number and a power of ten. Few digits and a
small power are numbers themselves (`exactly_toFloat`, `exactly_powersOfTen`), and
their quotient is one of numbers. Otherwise the parts are divided as they are,
which rounds once as well, or the quotient is so small that its digits need not be
looked at (`within_zero`).

In particular the value has no sign (`Binary.IsNearest.signless`). It can be
infinite.
-/

namespace Zaban

open Float.Model Float.Model.UnpackedFloat

-- ----------------------------------------------------------------------------
-- The nearest number
-- ----------------------------------------------------------------------------

namespace Binary

/-- The form of the number nearest to `r`, without a sign. -/
def IsNearest (r : ℚ) (b : Binary) : Prop :=
  ∃ m q, Canonical m q ∧ Reads m q r ∧ b = if q ≤ 971 then .finite false m q else .infinite false

/-- There is one nearest number. -/
theorem IsNearest.unique {r : ℚ} {b b' : Binary} (h : IsNearest r b) (h' : IsNearest r b') :
    b = b' := by
  obtain ⟨m, q, hCanonical, hReads, rfl⟩ := h
  obtain ⟨m', q', hCanonical', hReads', rfl⟩ := h'
  obtain ⟨rfl, rfl⟩ := hReads.unique hCanonical hCanonical' hReads'
  rfl

/-- The number that is packed has `r` in its interval. -/
def Packs (r : ℚ) (x : Float.Model) : Prop :=
  ∃ m q, Canonical m q ∧ Within m q r ∧ x = Float.Model.pack (finite false m q).unpacked

theorem Packs.isNearest {r : ℚ} {x : Float} (h : Packs r x.toModel) : IsNearest r (ofFloat x) := by
  obtain ⟨m, q, hCanonical, hWithin, hPack⟩ := h
  exact ⟨m, q, hCanonical, hWithin.reads hCanonical, ofFloat_of_pack hCanonical hPack⟩

-- ----------------------------------------------------------------------------
-- Natural numbers that are numbers
-- ----------------------------------------------------------------------------

/-- The number is the natural number `n`. -/
def Exactly (n : Nat) (x : Float) : Prop :=
  ∃ m q, ofFloat x = .finite false m q ∧ magnitude m q = n

/-- A natural number with few digits is a number. -/
theorem exists_magnitude_eq {n : Nat} (h : n < 2 ^ 53) :
    ∃ m q, InFormat m q ∧ magnitude m q = n := by
  by_cases hZero : n = 0
  · rw [hZero]
    exact ⟨0, -1074, ⟨canonical_zero, by decide⟩, magnitude_zero _⟩
  have hLog := log2_le_of_lt h
  have hPower (k : Nat) : 2 ^ k * 2 ^ (52 - n.log2) = 2 ^ (k + (52 - n.log2)) :=
    (Nat.pow_add _ _ _).symm
  refine ⟨n * 2 ^ (52 - n.log2), n.log2 - 52, ⟨⟨?_, by omega, Or.inr ?_⟩, by omega⟩, ?_⟩
  · calc n * 2 ^ (52 - n.log2) < 2 ^ (n.log2 + 1) * 2 ^ (52 - n.log2) :=
          Nat.mul_lt_mul_of_pos_right Nat.lt_log2_self (Nat.two_pow_pos _)
      _ = 2 ^ 53 := by
          rw [hPower, show n.log2 + 1 + (52 - n.log2) = 53 by omega]
  · calc 2 ^ 52 = 2 ^ n.log2 * 2 ^ (52 - n.log2) := by
          rw [hPower, Nat.add_sub_cancel' hLog]
      _ ≤ n * 2 ^ (52 - n.log2) := Nat.mul_le_mul_right _ (Nat.log2_self_le hZero)
  · have hUnit : (2 : ℚ) ^ (52 - n.log2) * 2 ^ ((n.log2 : Int) - 52) = 1 := by
      rw [← zpow_natCast, ← zpow_add₀ (by norm_num), Nat.cast_sub hLog]
      simp
    rw [magnitude, Nat.cast_mul, Nat.cast_pow, Nat.cast_ofNat, mul_assoc, hUnit, mul_one]

theorem packs_zero : Packs 0 (Float.Model.pack (.zero .positive)) := by
  have hWithin := within_magnitude 0 (-1074)
  rw [magnitude_zero] at hWithin
  exact ⟨0, -1074, canonical_zero, hWithin, rfl⟩

/-- Digits with nothing behind them are rounded to what they are. -/
theorem packs_roundExact {m k : Nat} (hPos : 0 < m)
    (hLong : -(k : Int) ≤ max ((m.log2 : Int) + 1 - 53) (-1074)) :
    Packs m (Float.Model.pack
      (roundWithAccuracy .binary64 .positive (m * 2 ^ k) (-k) .exact)) := by
  have hExact : Measures .exact ((m : ℚ) / 2 ^ (-k : Int) - (m * 2 ^ k : Nat)) := by
    change (m : ℚ) / 2 ^ (-k : Int) - (m * 2 ^ k : Nat) = 0
    rw [zpow_neg, zpow_natCast, div_inv_eq_mul]
    push_cast
    exact sub_self _
  have hReach : -(k : Int) ≤ max (totalExponent (m * 2 ^ k) (-k) - 53) (-1074) := by
    rw [totalExponent, log2_mul_two_pow hPos]
    omega
  obtain ⟨m', q, hCanonical, hWithin, hRound⟩ := roundWithAccuracy_within false hExact hReach
  exact ⟨m', q, hCanonical, hWithin, congrArg _ hRound⟩

theorem packs_normalize (n : Nat) :
    Packs n (Float.Model.pack (UnpackedFloat.normalize .binary64 n 0 .positive)) := by
  rcases Nat.eq_zero_or_pos n with rfl | hPos
  · exact packs_zero
  · obtain ⟨k, hLong, hNormalize⟩ := normalize_eq hPos
    rw [hNormalize]
    exact packs_roundExact hPos hLong

theorem exactly_toFloat {n : Nat} (h : n < 2 ^ 53) : Exactly n n.toUInt64.toFloat := by
  obtain ⟨m, q, hFormat, hMagnitude⟩ := exists_magnitude_eq h
  obtain ⟨m', q', hCanonical, hWithin, hPack⟩ := packs_normalize n
  rw [← toModel_toFloat h] at hPack
  -- the number itself is in its interval
  have hReads : Reads m q n := by
    rw [← hMagnitude]
    exact (within_magnitude m q).reads hFormat.toCanonical
  obtain ⟨rfl, rfl⟩ := hReads.unique hFormat.toCanonical hCanonical (hWithin.reads hCanonical)
  refine ⟨m, q, ?_, hMagnitude⟩
  rw [ofFloat_of_pack hCanonical hPack, if_pos hFormat.most]

theorem exactly_powersOfTen (i : Fin 23) :
    Exactly (10 ^ i.val) (Float.exactlyRepresentablePowersOfTen[i]) := by
  have hTable : ∀ i : Fin 23, ofFloat (Float.exactlyRepresentablePowersOfTen[i]) =
        .finite false (10 ^ i.val * 2 ^ 52 / 2 ^ (10 ^ i.val).log2) ((10 ^ i.val).log2 - 52) ∧
      2 ^ (10 ^ i.val).log2 ∣ 10 ^ i.val * 2 ^ 52 := by
    decide +kernel
  obtain ⟨hForm, hDvd⟩ := hTable i
  refine ⟨_, _, hForm, ?_⟩
  rw [magnitude, Nat.cast_div hDvd (by positivity), zpow_sub₀ (by norm_num), zpow_natCast]
  push_cast
  field_simp

/-- A quotient of natural numbers that are numbers. -/
theorem packs_div {n k : Nat} {x y : Float} (hx : Exactly n x) (hy : Exactly k y) (hPos : 0 < k) :
    Packs (n / k) (x / y).toModel := by
  obtain ⟨m, q, hForm, hMagnitude⟩ := hx
  obtain ⟨m', q', hForm', hMagnitude'⟩ := hy
  have hPos' : 0 < m' := by
    by_contra hZero
    obtain rfl : m' = 0 := by omega
    rw [magnitude_zero] at hMagnitude'
    exact hPos.ne (Nat.cast_eq_zero.mp hMagnitude'.symm).symm
  obtain ⟨n', p, hCanonical, hWithin, hDiv⟩ := div_within m q q' hPos'
  rw [hMagnitude, hMagnitude'] at hWithin
  refine ⟨n', p, hCanonical, hWithin, ?_⟩
  rw [← hDiv, ← hForm, ← hForm', ← unpack_eq, ← unpack_eq]
  rfl

-- ----------------------------------------------------------------------------
-- Natural numbers over powers of ten
-- ----------------------------------------------------------------------------

/-- What is far below the least number lies in the interval of zero. -/
theorem within_zero {m k : Nat} (h : 2048 + m.log2 < k) : Within 0 (-1074) (m / 10 ^ k) := by
  have hUpper : upperEnd 0 (-1074) = 2 ^ (-1075 : Int) := by
    have hHalf : (2 : ℚ) ^ (-1075 : Int) = 2 ^ (1 : Int) * 2 ^ (-1076 : Int) := by
      rw [← zpow_add₀ (by norm_num)]
      rfl
    rw [hHalf, zpow_one]
    rfl
  have hSmall : (m : ℚ) ≤ upperEnd 0 (-1074) * 10 ^ k := by
    have hBits : (m : ℚ) ≤ 2 ^ (m.log2 + 1) := by exact_mod_cast Nat.lt_log2_self.le
    calc (m : ℚ) ≤ 2 ^ ((m.log2 + 1 : Nat) : Int) := by rwa [zpow_natCast]
      _ ≤ 2 ^ (-1075 + k : Int) := zpow_le_zpow_right₀ (by norm_num) (by omega)
      _ = upperEnd 0 (-1074) * 2 ^ k := by
          rw [hUpper, zpow_add₀ (by norm_num), zpow_natCast]
      _ ≤ upperEnd 0 (-1074) * 10 ^ k := by
          rw [hUpper]
          gcongr
          norm_num
  have hLower : lowerEnd 0 (-1074) = 0 := by
    have hUnits : (interval 0 (-1074)).lower = 0 := by decide
    rw [lowerEnd, hUnits, Nat.cast_zero, zero_mul]
  refine ⟨?_, (div_le_iff₀ (by positivity)).mpr hSmall, by omega⟩
  rw [hLower]
  positivity

theorem packs_divided (m k : Nat) : Packs (m / 10 ^ k)
    (Float.Model.pack (UnpackedFloat.ofScientific .binary64 m (-(k : Int)))) := by
  unfold UnpackedFloat.ofScientific
  by_cases hZero : m = 0
  · rw [dif_pos hZero, hZero, Nat.cast_zero, zero_div]
    exact packs_zero
  have hNotAbove : ¬ -(k : Int) > 2 ^ Format.binary64.exponentBits := by
    change ¬ (2048 : Int) < -k
    omega
  have hTiny : -(k : Int) < -(2 ^ Format.binary64.exponentBits + m.log2) ↔ 2048 + m.log2 < k := by
    change -(k : Int) < -(2048 + m.log2) ↔ _
    omega
  rw [dif_neg hZero, if_neg hNotAbove, if_congr hTiny rfl rfl]
  by_cases hBelow : 2048 + m.log2 < k
  · rw [if_pos hBelow]
    exact ⟨0, -1074, canonical_zero, within_zero hBelow, rfl⟩
  rw [if_neg hBelow]
  by_cases hNone : k = 0
  · have hNoPower : (-(k : Int)).toNat = 0 := by omega
    rw [if_pos (by omega)]
    change Packs _ (Float.Model.pack
      (roundWithAccuracy .binary64 .positive (m <<< 53 * 10 ^ (-(k : Int)).toNat) (-53 + 0) .exact))
    rw [hNoPower, hNone, pow_zero, div_one, Nat.pow_zero, Nat.mul_one, Nat.shiftLeft_eq]
    exact packs_roundExact (Nat.pos_of_ne_zero hZero) (by omega)
  · rw [if_neg (by omega)]
    have hPower : 0 < 10 ^ k := Nat.pow_pos (by decide)
    obtain ⟨n, q, hCanonical, hWithin, hDiv⟩ := div_within m 0 0 hPower
    rw [magnitude, magnitude, zpow_zero, mul_one, mul_one] at hWithin
    push_cast at hWithin
    refine ⟨n, q, hCanonical, hWithin, ?_⟩
    rw [← hDiv, unpacked, unpacked, dif_neg hZero, dif_neg hPower.ne']
    simp only [neg_neg, Int.toNat_natCast]
    rfl

/-- **A natural number over a power of ten** is rounded once. -/
theorem packs_ofScientific (m k : Nat) :
    Packs (m / 10 ^ k) (Float.ofScientific m true k).toModel := by
  unfold Float.ofScientific
  by_cases hSmall : m < 2 ^ 53 ∧ k ≤ 22
  · rw [dif_pos hSmall]
    have hQuotient := packs_div (exactly_toFloat hSmall.1) (exactly_powersOfTen ⟨k, by omega⟩)
      (by positivity)
    push_cast at hQuotient
    exact hQuotient
  · rw [dif_neg hSmall]
    change Packs _ (Float.Model.pack (UnpackedFloat.ofScientific .binary64 m (Int.negOfNat k)))
    have hNeg : Int.negOfNat k = -(k : Int) := Int.negOfNat_eq
    rw [hNeg]
    exact packs_divided m k

end Binary

-- ----------------------------------------------------------------------------
-- Numerals
-- ----------------------------------------------------------------------------

section Numerals

variable {whole more word : List Char} {x : Float}

theorem no_point (hWhole : ∀ c ∈ whole, c.isDigit = true) : ∀ c ∈ whole, (c != '.') = true := by
  intro c hc
  rw [bne_iff_ne]
  rintro rfl
  cases hWhole _ hc

namespace Numeral

/-- The value of digits with a point behind them. -/
theorem value_fraction (hWhole : ∀ c ∈ whole, c.isDigit = true) (more : List Char) :
    value (whole ++ '.' :: more) =
      Float.ofScientific (Nat.ofDigitChars 10 (whole ++ more) 0) true more.length := by
  have hHead : ∀ c ∈ ('.' :: more).head?, (c != '.') = false := by
    intro c hc
    obtain rfl : '.' = c := Option.some.inj hc
    rfl
  obtain ⟨hTake, hDrop⟩ := span_of_head (no_point hWhole) hHead
  rw [value, hTake, hDrop]
  rfl

/-- The value of digits without a point. -/
theorem value_whole (hWhole : ∀ c ∈ whole, c.isDigit = true) :
    value whole = Float.ofScientific (Nat.ofDigitChars 10 whole 0) true 0 := by
  have hHead : ∀ c ∈ ([] : List Char).head?, (c != '.') = false := nofun
  obtain ⟨hTake, hDrop⟩ := span_of_head (no_point hWhole) hHead
  rw [List.append_nil] at hTake hDrop
  rw [value, hTake, hDrop, List.drop_nil, List.append_nil]
  rfl

theorem value_point (hWhole : ∀ c ∈ whole, c.isDigit = true) :
    value (whole ++ ['.']) = value whole := by
  rw [value_fraction hWhole, value_whole hWhole, List.append_nil, List.length_nil]

/-- **The value of a numeral is the number nearest to what it denotes.** -/
theorem value_isNearest (hWhole : Digits whole) (hMore : ∀ c ∈ more, c.isDigit = true) :
    Binary.IsNearest (DecimalNumeral.mk .none whole more none hWhole hMore).value
      (Binary.ofFloat (value (whole ++ '.' :: more))) := by
  have hDenotes : (DecimalNumeral.mk .none whole more none hWhole hMore).value =
      (Nat.ofDigitChars 10 (whole ++ more) 0 : Nat) / 10 ^ more.length := by
    simp [DecimalNumeral.value, SignMark.factor, div_eq_mul_inv]
  rw [hDenotes, value_fraction hWhole.2]
  exact (Binary.packs_ofScientific _ _).isNearest

/-- No other number is. -/
theorem eq_value_iff (hWhole : Digits whole) (hMore : ∀ c ∈ more, c.isDigit = true) :
    x = value (whole ++ '.' :: more) ↔
      Binary.IsNearest (DecimalNumeral.mk .none whole more none hWhole hMore).value
        (Binary.ofFloat x) := by
  constructor
  · rintro rfl
    exact value_isNearest hWhole hMore
  · intro h
    exact Binary.ofFloat_injective (h.unique (value_isNearest hWhole hMore))

end Numeral

theorem DecimalNumeral.chars_plain (hWhole : Digits whole)
    (hMore : ∀ c ∈ more, c.isDigit = true) :
    (DecimalNumeral.mk .none whole more none hWhole hMore).chars =
      whole ++ if more = [] then [] else '.' :: more := by
  simp [chars, tail, SignMark.chars]

/-- **What a word of the class of numerals means**: the number nearest to what it denotes. A point
with no digits behind it adds nothing. -/
theorem WordClass.means_numeral_iff :
    WordClass.Means .numeral word (.number x) ↔
      ∃ n : DecimalNumeral, n.sign = .none ∧ n.power = none ∧
        (word = n.chars ∨ n.fraction = [] ∧ word = n.chars ++ ['.']) ∧
        Binary.IsNearest n.value (Binary.ofFloat x) := by
  constructor
  · intro h
    cases h with
    | whole hSome hDigits =>
      have hWhole : Digits word := ⟨hSome, hDigits⟩
      refine ⟨⟨.none, word, [], none, hWhole, nofun⟩, rfl, rfl, Or.inl ?_, ?_⟩
      · rw [DecimalNumeral.chars_plain, if_pos rfl, List.append_nil]
      · rw [← Numeral.value_point hDigits]
        exact Numeral.value_isNearest _ _
    | @fraction digits more hSome hDigits hMore =>
      have hWhole : Digits digits := ⟨hSome, hDigits⟩
      refine ⟨⟨.none, digits, more, none, hWhole, hMore⟩, rfl, rfl, ?_,
        Numeral.value_isNearest _ _⟩
      rw [DecimalNumeral.chars_plain]
      cases more with
      | nil => exact Or.inr ⟨rfl, by rw [if_pos rfl, List.append_nil]⟩
      | cons c cs => exact Or.inl (by rw [if_neg (List.cons_ne_nil c cs)])
  · rintro ⟨⟨sign, whole, more, power, hWhole, hMore⟩, hSign, hPower, hWord, hNearest⟩
    obtain rfl : sign = .none := hSign
    obtain rfl : power = none := hPower
    obtain rfl := (Numeral.eq_value_iff hWhole hMore).mpr hNearest
    rw [DecimalNumeral.chars_plain] at hWord
    have hFraction : WordClass.Means .numeral (whole ++ '.' :: more)
        (.number (Numeral.value (whole ++ '.' :: more))) := .fraction hWhole.1 hWhole.2 hMore
    rcases hWord with rfl | ⟨hNone, rfl⟩
    · cases more with
      | nil =>
        rw [if_pos rfl, List.append_nil, Numeral.value_point hWhole.2]
        exact .whole hWhole.1 hWhole.2
      | cons c cs =>
        rw [if_neg (List.cons_ne_nil c cs)]
        exact hFraction
    · obtain rfl : more = [] := hNone
      rw [if_pos rfl, List.append_nil]
      exact hFraction

-- ----------------------------------------------------------------------------
-- Signs
-- ----------------------------------------------------------------------------

/-- The sign bit is clear, and it is a number. -/
def Signless (x : Float) : Prop :=
  x.toBits.toNat < 2 ^ 63 ∧ x.isNaN = false

theorem signless_of_form
    (h : Binary.ofFloat x = .infinite false ∨ ∃ m q, Binary.ofFloat x = .finite false m q) :
    Signless x := by
  constructor
  · have hBits : x.toBits.toNat < 2 ^ 64 := x.toBits.toNat_lt
    have hClear : ¬ x.toBits.toNat / Binary.signBit % 2 = 1 := by
      intro hSet
      unfold Binary.ofFloat Binary.ofBits at h
      simp only [hSet, decide_true] at h
      split_ifs at h <;> simp at h
    have hSign : Binary.signBit = 2 ^ 63 := rfl
    rw [hSign] at hClear
    omega
  · change x.toModel.unpack.isNaN = false
    rw [Binary.unpack_eq]
    rcases h with hForm | ⟨m, q, hForm⟩
    · rw [hForm]
      rfl
    · rw [hForm, Binary.unpacked]
      by_cases hZero : m = 0
      · rw [dif_pos hZero]
        rfl
      · rw [dif_neg hZero]
        rfl

/-- **The nearest number has no sign**, and is not NaN. -/
theorem Binary.IsNearest.signless {r : ℚ} (h : Binary.IsNearest r (Binary.ofFloat x)) :
    Signless x := by
  obtain ⟨m, q, -, -, hForm⟩ := h
  refine signless_of_form ?_
  by_cases hMost : q ≤ 971
  · rw [if_pos hMost] at hForm
    exact Or.inr ⟨m, q, hForm⟩
  · rw [if_neg hMost] at hForm
    exact Or.inl hForm

end Numerals

end Zaban
