import Mathlib
import Zaban.Proofs.Number.Nearest

/-!
# Rounding gives the number that is read

Arithmetic works with digits and with what is known of the rest behind them: that
there is none, or that it is less than a half of the last place, a half of it, or
more (`Measures`). Digits with a bit for the half and a bit for what is behind it
stand for a rational in this way (`Represents`), and they still do when digits are
dropped (`Represents.shiftRight`). Rounded up or down they are the nearest whole
number, and the even one of two (`Represents.rounded`).

So `roundWithAccuracy_within` says of what is rounded that it lies in the interval
of the result, if enough digits were there to be rounded. A quotient is computed
with enough of them (`divCore_long`), and its rest is measured by the remainder
(`measures_accuracyOfFraction`). So a quotient is rounded correctly (`div_within`).
-/

namespace Zaban

open Float.Model Float.Model.UnpackedFloat

-- ----------------------------------------------------------------------------
-- What digits leave out
-- ----------------------------------------------------------------------------

/-- The part of the last place that is behind the digits, as far as it is known. -/
def Measures : Accuracy → ℚ → Prop
  | .exact, r => r = 0
  | .inexact .lt, r => 0 < r ∧ r < 1 / 2
  | .inexact .eq, r => r = 1 / 2
  | .inexact .gt, r => 1 / 2 < r ∧ r < 1

/-- Digits with their two bits stand for `r`. -/
def Represents (em : ExtendedMantissa) (r : ℚ) : Prop :=
  Measures em.accuracy (r - em.mantissa)

/-- The whole number `m` is nearest to `r`, and it is the even one of two. -/
structure Rounds (m : Nat) (r : ℚ) : Prop where
  above  : m - 1 / 2 ≤ r
  below  : r ≤ m + 1 / 2
  inside : m % 2 = 1 → m - 1 / 2 < r ∧ r < m + 1 / 2

section Digits

variable {em : ExtendedMantissa} {a : Accuracy} {m : Nat} {q : Int} {r : ℚ}

/-- A remainder measures what a quotient leaves out. -/
theorem measures_accuracyOfFraction {num den : Nat} (hLt : num < den) :
    Measures (accuracyOfFraction num den) (num / den) := by
  have hDen : (0 : ℚ) < den := Nat.cast_pos.mpr (by omega)
  have hOne : (num : ℚ) / den < 1 := (div_lt_one hDen).mpr (Nat.cast_lt.mpr hLt)
  unfold accuracyOfFraction
  by_cases hZero : num = 0
  · rw [if_pos hZero, hZero, Nat.cast_zero, zero_div]
    exact rfl
  have hPos : (0 : ℚ) < num / den := div_pos (Nat.cast_pos.mpr (by omega)) hDen
  rw [if_neg hZero]
  rcases lt_trichotomy (2 * num) den with hHalf | hHalf | hHalf
  · have hCast : (2 * num : ℚ) < den := by exact_mod_cast hHalf
    rw [compare_lt_iff_lt.mpr hHalf]
    exact ⟨hPos, (div_lt_iff₀ hDen).mpr (by linarith)⟩
  · have hCast : (2 * num : ℚ) = den := by exact_mod_cast hHalf
    rw [compare_eq_iff_eq.mpr hHalf]
    exact (div_eq_iff hDen.ne').mpr (by linarith)
  · have hCast : (den : ℚ) < 2 * num := by exact_mod_cast hHalf
    rw [compare_gt_iff_gt.mpr hHalf]
    exact ⟨(lt_div_iff₀ hDen).mpr (by linarith), hOne⟩

theorem Measures.bounds (h : Measures a r) : 0 ≤ r ∧ r < 1 := by
  rcases a with _ | (_ | _ | _)
  case exact =>
    obtain rfl : r = 0 := h
    norm_num
  case inexact.lt =>
    obtain ⟨hPos, hHalf⟩ : 0 < r ∧ r < 1 / 2 := h
    exact ⟨hPos.le, by linarith⟩
  case inexact.eq =>
    obtain rfl : r = 1 / 2 := h
    norm_num
  case inexact.gt =>
    obtain ⟨hHalf, hOne⟩ : 1 / 2 < r ∧ r < 1 := h
    exact ⟨by linarith, hOne⟩

theorem represents_ofMantissaAndAccuracy (h : Measures a (r - m)) :
    Represents (.ofMantissaAndAccuracy m a) r := by
  rcases a with _ | (_ | _ | _) <;> exact h

theorem Represents.part {half rest : Bool} (h : Represents ⟨m, half, rest⟩ r) :
    if half || rest then 0 < r - m ∧ r - m < 1 else r - m = 0 := by
  cases half <;> cases rest
  case false.false => exact h
  case false.true =>
    obtain ⟨hPos, hHalf⟩ : 0 < r - m ∧ r - m < 1 / 2 := h
    exact ⟨hPos, by linarith⟩
  case true.false =>
    have hHalf : r - m = 1 / 2 := h
    exact ⟨by linarith, by linarith⟩
  case true.true =>
    obtain ⟨hHalf, hOne⟩ : 1 / 2 < r - m ∧ r - m < 1 := h
    exact ⟨by linarith, hOne⟩

/-- Dropping a digit: it becomes the bit for the half, and the other bits become one. -/
theorem Represents.shiftRightOne (h : Represents em r) : Represents em.shiftRightOne (r / 2) := by
  obtain ⟨m, half, rest⟩ := em
  have hPart := h.part
  have hShift : ExtendedMantissa.shiftRightOne ⟨m, half, rest⟩ =
      ⟨m / 2, m % 2 != 0, half || rest⟩ := rfl
  rw [hShift]
  generalize (half || rest) = inexact at hPart ⊢
  obtain ⟨n, rfl | rfl⟩ := m.even_or_odd'
  · have hHalf : 2 * n / 2 = n := by omega
    have hBit : (2 * n % 2 != 0) = false := by simp
    rw [hHalf, hBit]
    push_cast at hPart
    cases inexact with
    | false =>
      have hSame : r - 2 * n = 0 := hPart
      change r / 2 - n = 0
      linarith
    | true =>
      obtain ⟨hPos, hOne⟩ : 0 < r - 2 * n ∧ r - 2 * n < 1 := hPart
      change 0 < r / 2 - n ∧ r / 2 - n < 1 / 2
      exact ⟨by linarith, by linarith⟩
  · have hHalf : (2 * n + 1) / 2 = n := by omega
    have hBit : ((2 * n + 1) % 2 != 0) = true := by simp
    rw [hHalf, hBit]
    push_cast at hPart
    cases inexact with
    | false =>
      have hSame : r - (2 * n + 1) = 0 := hPart
      change r / 2 - n = 1 / 2
      linarith
    | true =>
      obtain ⟨hPos, hOne⟩ : 0 < r - (2 * n + 1) ∧ r - (2 * n + 1) < 1 := hPart
      change 1 / 2 < r / 2 - n ∧ r / 2 - n < 1
      exact ⟨by linarith, by linarith⟩

theorem Represents.shiftRight (h : Represents em r) (k : Nat) :
    Represents (em >>> k) (r / 2 ^ k) := by
  induction k with
  | zero =>
    rw [pow_zero, div_one]
    exact h
  | succ k ih =>
    change Represents (em >>> k).shiftRightOne _
    rw [pow_succ, ← div_div]
    exact ih.shiftRightOne

theorem Rounds.of_lt (hAbove : m - 1 / 2 < r) (hBelow : r < m + 1 / 2) : Rounds m r :=
  ⟨hAbove.le, hBelow.le, fun _ => ⟨hAbove, hBelow⟩⟩

/-- **Digits are rounded to the nearest whole number**, and to the even one of two. -/
theorem Represents.rounds (h : Represents em r) : Rounds em.roundedMantissa r := by
  unfold Represents at h
  rw [ExtendedMantissa.roundedMantissa]
  generalize em.accuracy = a at h
  generalize em.mantissa = m at h
  rcases a with _ | (_ | _ | _)
  case exact =>
    have hSame : r - m = 0 := h
    rw [Accuracy.roundToNearestEven]
    exact .of_lt (by linarith) (by linarith)
  case inexact.lt =>
    obtain ⟨hPos, hHalf⟩ : 0 < r - m ∧ r - m < 1 / 2 := h
    rw [Accuracy.roundToNearestEven]
    exact .of_lt (by linarith) (by linarith)
  case inexact.eq =>
    have hHalf : r - m = 1 / 2 := h
    rw [Accuracy.roundToNearestEven]
    rcases Nat.mod_two_eq_zero_or_one m with hEven | hOdd
    · rw [hEven, Nat.add_zero]
      exact ⟨by linarith, by linarith, fun hOdd => by omega⟩
    · rw [hOdd]
      exact ⟨by push_cast; linarith, by push_cast; linarith, fun hEven => by omega⟩
  case inexact.gt =>
    obtain ⟨hHalf, hOne⟩ : 1 / 2 < r - m ∧ r - m < 1 := h
    rw [Accuracy.roundToNearestEven]
    exact .of_lt (by push_cast; linarith) (by push_cast; linarith)

end Digits

-- ----------------------------------------------------------------------------
-- Rounding to the format
-- ----------------------------------------------------------------------------

section Format

open Binary

variable {a : Accuracy} {m : Nat} {e q : Int} {r : ℚ}

theorem within_of_quarters (hAbove : (interval m q).lower ≤ r) (hBelow : r ≤ (interval m q).upper)
    (hInside : m % 2 = 1 → (interval m q).lower < r ∧ r < (interval m q).upper) :
    Within m q (r * quarter q) where
  above := mul_le_mul_of_nonneg_right hAbove (quarter_pos q).le
  below := mul_le_mul_of_nonneg_right hBelow (quarter_pos q).le
  inside hOdd := ⟨mul_lt_mul_of_pos_right (hInside hOdd).1 (quarter_pos q),
    mul_lt_mul_of_pos_right (hInside hOdd).2 (quarter_pos q)⟩

/-- What is nearest to `m` lies in the interval of the number with the significand `m`, counted in
its last place, if it is not below the least significand of full length. -/
theorem Rounds.within (h : Rounds m r) (hNonneg : 0 ≤ r) (hFull : -1074 < q → 2 ^ 52 ≤ r) :
    Within m q (r * 2 ^ q) := by
  obtain ⟨hAbove, hBelow, hInside⟩ := h
  have hUnit : r * 2 ^ q = 4 * r * quarter q := by
    rw [quarter, zpow_sub₀ (by norm_num)]
    ring
  have hLower : ((interval m q).lower : ℚ) ≤ 4 * r ∧
      (m % 2 = 1 → ((interval m q).lower : ℚ) < 4 * r) := by
    rcases lower_cases m q with ⟨rfl, hLeast, hLower⟩ | ⟨-, hLower⟩
    · have hReach := hFull hLeast
      rw [hLower]
      norm_num at hReach ⊢
      linarith
    · rcases Nat.eq_zero_or_pos m with rfl | hPos
      · rw [hLower]
        exact ⟨by simpa using hNonneg, by omega⟩
      · rw [hLower, Nat.cast_sub (by omega)]
        push_cast
        exact ⟨by linarith, fun hOdd => by linarith [(hInside hOdd).1]⟩
  have hUpper : ((interval m q).upper : ℚ) = 4 * m + 2 := by
    change ((4 * m + 2 : Nat) : ℚ) = _
    push_cast
    rfl
  rw [hUnit]
  refine within_of_quarters hLower.1 ?_ fun hOdd => ⟨hLower.2 hOdd, ?_⟩
  · linarith
  · linarith [(hInside hOdd).2]

/-- Digits that are rounded up to a digit too many are those of the next exponent. -/
theorem Rounds.within_next (h : Rounds (2 ^ 53) r) (hLeast : -1074 ≤ q) :
    Within (2 ^ 52) (q + 1) (r * 2 ^ q) := by
  have hUnit : r * 2 ^ q = 2 * r * quarter (q + 1) := by
    rw [quarter, show q + 1 - 2 = q - 1 by omega, zpow_sub₀ (by norm_num)]
    ring
  have hAbove := h.above
  have hBelow := h.below
  rcases lower_cases (2 ^ 52) (q + 1) with ⟨-, -, hLower⟩ | ⟨hNot, -⟩
  · rw [hUnit]
    refine within_of_quarters ?_ ?_ (by omega)
    · rw [hLower]
      norm_num at hAbove ⊢
      linarith
    · change 2 * r ≤ ((4 * 2 ^ 52 + 2 : Nat) : ℚ)
      norm_num at hBelow ⊢
      linarith
  · omega

theorem represents_shiftToTargetExponent (h : Measures a (r / 2 ^ e - m)) :
    Represents (shiftToTargetExponent .binary64 m e a).1 (r / 2 ^ roundingExponent m e) := by
  obtain ⟨k, hShift⟩ : ∃ k, (Format.binary64.targetExponent (totalExponent m e) - e).toNat = k :=
    ⟨_, rfl⟩
  have hExponent : roundingExponent m e = e + k := by
    rw [targetExponent_eq] at hShift
    unfold roundingExponent
    omega
  have hPower : r / 2 ^ roundingExponent m e = r / 2 ^ e / 2 ^ k := by
    rw [hExponent, zpow_add₀ (by norm_num), zpow_natCast, div_div]
  rw [hPower]
  change Represents (ExtendedMantissa.ofMantissaAndAccuracy m a >>>
    (Format.binary64.targetExponent (totalExponent m e) - e).toNat) _
  rw [hShift]
  exact (represents_ofMantissaAndAccuracy h).shiftRight k

/-- **Rounding to the format**: what is rounded lies in the interval of the result, if its digits
reach to the last place or beyond. -/
theorem roundWithAccuracy_within (negative : Bool) (h : Measures a (r / 2 ^ e - m))
    (hLong : e ≤ max (totalExponent m e - 53) (-1074)) :
    ∃ m' q, Canonical m' q ∧ Within m' q r ∧
      roundWithAccuracy .binary64 (sign negative) m e a = (finite negative m' q).unpacked := by
  have hRepresents := represents_shiftToTargetExponent h
  have hRounds : Rounds (roundedDigits m e a) (r / 2 ^ roundingExponent m e) := hRepresents.rounds
  obtain ⟨hFloor, -⟩ := Measures.bounds hRepresents
  rw [(shiftToTargetExponent_eq m e a).1] at hFloor
  obtain ⟨hBelow, hAbove⟩ := roundedDigits_bounds m e a
  have hLeast : -1074 ≤ roundingExponent m e := by
    unfold roundingExponent
    omega
  have hFull := le_leadingDigits hLong
  have hUnit : r / 2 ^ roundingExponent m e * 2 ^ roundingExponent m e = r :=
    div_mul_cancel₀ r (by positivity)
  obtain ⟨m', q, hOutcome, hRound⟩ := roundWithAccuracy_outcome (sign negative) m e a
  refine ⟨m', q, ?_, ?_, hRound⟩
  · exact ⟨by omega, by omega, by omega⟩
  · rw [← hUnit]
    rcases hOutcome with ⟨-, rfl, rfl⟩ | ⟨hCarry, rfl, rfl⟩
    · have hNonneg : (0 : ℚ) ≤ leadingDigits m e := Nat.cast_nonneg _
      refine hRounds.within (by linarith) fun hGreater => ?_
      have hDigits : (2 ^ 52 : ℚ) ≤ leadingDigits m e := by exact_mod_cast hFull hGreater
      linarith
    · rw [hCarry] at hRounds
      exact hRounds.within_next hLeast

-- ----------------------------------------------------------------------------
-- Quotients
-- ----------------------------------------------------------------------------

/-- A quotient is computed to the last place or beyond. -/
theorem divCore_long {m m' : Nat} (e e' : Int) (hPos : 0 < m) (hPos' : 0 < m') :
    (divCore .binary64 m e m' e').2.1 ≤
      max (totalExponent (divCore .binary64 m e m' e').1 (divCore .binary64 m e m' e').2.1 - 53)
        (-1074) := by
  obtain ⟨k, t, hTarget, hShift, hDiv⟩ := divCore_eq m e m' e'
  rw [hDiv]
  dsimp only
  have hDigits : m.log2 + k ≤ (m * 2 ^ k / m').log2 + m'.log2 + 1 := by
    by_cases hShort : m.log2 + k ≤ m'.log2 + 1
    · omega
    have hQuotient : 2 ^ (m.log2 + k - m'.log2 - 1) ≤ m * 2 ^ k / m' := by
      rw [Nat.le_div_iff_mul_le hPos']
      calc 2 ^ (m.log2 + k - m'.log2 - 1) * m'
          ≤ 2 ^ (m.log2 + k - m'.log2 - 1) * 2 ^ (m'.log2 + 1) :=
            Nat.mul_le_mul_left _ Nat.lt_log2_self.le
        _ = 2 ^ (m.log2 + k) := by
            rw [← Nat.pow_add]
            congr 1
            omega
        _ = 2 ^ m.log2 * 2 ^ k := Nat.pow_add _ _ _
        _ ≤ m * 2 ^ k := Nat.mul_le_mul_right _ (Nat.log2_self_le (Nat.ne_of_gt hPos))
    have hSome : m * 2 ^ k / m' ≠ 0 := by
      have hTwo := Nat.two_pow_pos (m.log2 + k - m'.log2 - 1)
      omega
    have hLog := (Nat.le_log2 hSome).mpr hQuotient
    omega
  unfold totalExponent at *
  omega

theorem measures_divCore {m m' : Nat} (e e' : Int) (hPos' : 0 < m') :
    Measures (divCore .binary64 m e m' e').2.2
      (magnitude m e / magnitude m' e' / 2 ^ (divCore .binary64 m e m' e').2.1 -
        (divCore .binary64 m e m' e').1) := by
  obtain ⟨k, t, -, hShift, hDiv⟩ := divCore_eq m e m' e'
  rw [hDiv]
  dsimp only
  have hDivisor : (m' : ℚ) ≠ 0 := Nat.cast_ne_zero.mpr (Nat.ne_of_gt hPos')
  have hParts : ((m * 2 ^ k : Nat) : ℚ) = (m' * (m * 2 ^ k / m') + m * 2 ^ k % m' : Nat) := by
    rw [Nat.div_add_mod]
  have hRest : magnitude m e / magnitude m' e' / 2 ^ t - (m * 2 ^ k / m' : Nat) =
      (m * 2 ^ k % m' : Nat) / m' := by
    have hPower : (2 : ℚ) ^ e = 2 ^ t * 2 ^ k * 2 ^ e' := by
      rw [← zpow_natCast, ← zpow_add₀ (by norm_num), ← zpow_add₀ (by norm_num), hShift]
      congr 1
      ring
    rw [magnitude, magnitude, hPower]
    push_cast at hParts
    field_simp
    linarith
  rw [hRest]
  exact measures_accuracyOfFraction (Nat.mod_lt _ hPos')

/-- **A quotient is rounded into its interval.** What is divided may be zero. -/
theorem div_within (m : Nat) {m' : Nat} (e e' : Int) (hPos' : 0 < m') :
    ∃ n q, Canonical n q ∧ Within n q (magnitude m e / magnitude m' e') ∧
      UnpackedFloat.div .binary64 (finite false m e).unpacked (finite false m' e').unpacked =
        (finite false n q).unpacked := by
  rw [unpacked, unpacked, dif_neg (Nat.ne_of_gt hPos')]
  by_cases hZero : m = 0
  · have hNothing : magnitude m e / magnitude m' e' = magnitude 0 (-1074) := by
      rw [hZero, magnitude_zero, magnitude_zero, zero_div]
    rw [dif_pos hZero, hNothing]
    exact ⟨0, -1074, canonical_zero, within_magnitude 0 (-1074), rfl⟩
  · rw [dif_neg hZero]
    exact roundWithAccuracy_within false (measures_divCore e e' hPos')
      (divCore_long e e' (Nat.pos_of_ne_zero hZero) hPos')

end Format

end Zaban
