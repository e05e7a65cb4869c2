import Mathlib
import Zaban.Proofs.Number.Exact
import Zaban.Number.Shortest

/-!
# What is read as a number

A rational number is read as the number nearest to it, and where two are equally
near as the one with the even significand (`Reads`). The rationals that are read
as one number are those of its `interval` (`reads_iff`): every other number is at
least twice as far away as the end of the interval on its side (`room_above`,
`room_below`), and the next ones stand just there (`exists_next`,
`exists_previous`).

So the intervals of different numbers are apart, in the order of the numbers
(`Reads.lt_of_less`), and a rational is read as one number at most
(`Reads.unique`).
-/

namespace Zaban.Binary

/-- The number `m * 2 ^ q`. -/
def magnitude (m : Nat) (q : Int) : ℚ :=
  m * 2 ^ q

/-- **The rational `r` is read as `m * 2 ^ q`.** Exponents that are too large for the format take
part: what is nearest to a number with one of them is not read as a finite number. -/
structure Reads (m : Nat) (q : Int) (r : ℚ) : Prop where
  nearest : ∀ {m' q'}, Canonical m' q' → |r - magnitude m q| ≤ |r - magnitude m' q'|
  even    : ∀ {m' q'}, Canonical m' q' → |r - magnitude m q| = |r - magnitude m' q'| →
    m' = m ∧ q' = q ∨ m % 2 = 0

-- ----------------------------------------------------------------------------
-- Intervals
-- ----------------------------------------------------------------------------

/-- A quarter of the last place, the unit of an `Interval`. -/
def quarter (q : Int) : ℚ :=
  2 ^ (q - 2)

/-- The lower end of the interval of `m * 2 ^ q`. -/
def lowerEnd (m : Nat) (q : Int) : ℚ :=
  (interval m q).lower * quarter q

/-- The upper end of the interval of `m * 2 ^ q`. -/
def upperEnd (m : Nat) (q : Int) : ℚ :=
  (interval m q).upper * quarter q

/-- The rational `r` lies in the interval of `m * 2 ^ q`, and not at an end if the ends do not
belong to it. -/
structure Within (m : Nat) (q : Int) (r : ℚ) : Prop where
  above  : lowerEnd m q ≤ r
  below  : r ≤ upperEnd m q
  inside : m % 2 = 1 → lowerEnd m q < r ∧ r < upperEnd m q

section Units

variable (m : Nat) (q : Int) {q' : Int}

theorem quarter_pos : 0 < quarter q := by
  unfold quarter
  positivity

theorem magnitude_eq : magnitude m q = ((4 * m : Nat) : ℚ) * quarter q := by
  have hSplit : (2 : ℚ) ^ q = 4 * 2 ^ (q - 2) := by
    rw [zpow_sub₀ (by norm_num)]
    norm_num
    ring
  unfold magnitude quarter
  rw [hSplit]
  push_cast
  ring

theorem magnitude_zero : magnitude 0 q = 0 := by
  rw [magnitude, Nat.cast_zero, zero_mul]

theorem upperEnd_eq : upperEnd m q = ((4 * m + 2 : Nat) : ℚ) * quarter q := rfl

variable {q}

theorem quarter_eq (hLe : q ≤ q') : quarter q' = ((2 ^ (q' - q).toNat : Nat) : ℚ) * quarter q := by
  unfold quarter
  push_cast
  rw [← zpow_natCast, ← zpow_add₀ (by norm_num), Int.toNat_of_nonneg (by omega)]
  congr 1
  ring

end Units

theorem lower_cases (m : Nat) (q : Int) :
    m = 2 ^ 52 ∧ -1074 < q ∧ (interval m q).lower = 4 * m - 1 ∨
      (m ≠ 2 ^ 52 ∨ q ≤ -1074) ∧ (interval m q).lower = 4 * m - 2 := by
  have hHidden : hiddenBit = 2 ^ 52 := rfl
  have hLeast : leastExponent = -1074 := rfl
  unfold interval
  dsimp only
  rw [hHidden, hLeast]
  by_cases h : m = 2 ^ 52 ∧ -1074 < q
  · rw [if_pos h]
    exact Or.inl ⟨h.1, h.2, rfl⟩
  · rw [if_neg h]
    exact Or.inr ⟨by omega, rfl⟩

section Room

variable {m m' : Nat} {q q' : Int} {r r' : ℚ}

theorem Less.le (hLess : Less m q m' q') : q ≤ q' := by
  unfold Less at hLess
  omega

-- ----------------------------------------------------------------------------
-- Room between numbers
-- ----------------------------------------------------------------------------

/-- A number and a larger one, in quarters of the last place of the smaller one. -/
theorem room (h : Canonical m q) (h' : Canonical m' q') (hLess : Less m q m' q') :
    4 * m + 4 ≤ 4 * m' * 2 ^ (q' - q).toNat ∧
    4 * m + (2 * (4 * m') - 2 * (interval m' q').lower) * 2 ^ (q' - q).toNat
      ≤ 4 * m' * 2 ^ (q' - q).toNat ∧
    (m % 2 = 0 → m' % 2 = 0 → 4 * m + 4 < 4 * m' * 2 ^ (q' - q).toNat) := by
  obtain ⟨hShort, hLeast, hFull⟩ := h
  obtain ⟨-, -, hFull'⟩ := h'
  have hLower := lower_cases m' q'
  rcases hLess with hExponent | ⟨rfl, hDigits⟩
  · obtain ⟨k, hk⟩ : ∃ k, (q' - q).toNat = k + 1 := ⟨(q' - q).toNat - 1, by omega⟩
    rw [hk, pow_succ]
    have hOne : 1 ≤ 2 ^ k := Nat.one_le_two_pow
    generalize 2 ^ k = p at hOne ⊢
    have hLong : 2 ^ 52 * p ≤ m' * p := Nat.mul_le_mul_right p (by omega)
    have hProduct : 4 * m' * (p * 2) = 8 * (m' * p) := by ring
    rcases hLower with ⟨rfl, -, hLower⟩ | ⟨hNot, hLower⟩
    · have hTwo : 2 * (4 * 2 ^ 52) - 2 * (4 * 2 ^ 52 - 1) = 2 := by omega
      rw [hLower, hTwo]
      omega
    · have hLonger : (2 ^ 52 + 1) * p ≤ m' * p := Nat.mul_le_mul_right p (by omega)
      have hFour : 2 * (4 * m') - 2 * (4 * m' - 2) = 4 := by omega
      rw [hLower, hFour]
      omega
  · have hSame : (q - q).toNat = 0 := by omega
    rw [hSame, pow_zero]
    omega

theorem lower_le (m : Nat) (q : Int) : (interval m q).lower ≤ 4 * m := by
  have hLower := lower_cases m q
  omega

theorem room_above (h : Canonical m q) (h' : Canonical m' q') (hLess : Less m q m' q') :
    magnitude m q + 2 * (upperEnd m q - magnitude m q) ≤ magnitude m' q' := by
  have hRoom : ((4 * m + 4 : Nat) : ℚ) ≤ (4 * m' * 2 ^ (q' - q).toNat : Nat) :=
    Nat.cast_le.mpr (room h h' hLess).1
  have hScaled := mul_le_mul_of_nonneg_right hRoom (quarter_pos q).le
  rw [upperEnd_eq, magnitude_eq, magnitude_eq, quarter_eq hLess.le]
  push_cast at hScaled ⊢
  linarith

theorem room_below (h : Canonical m q) (h' : Canonical m' q') (hLess : Less m q m' q') :
    magnitude m q + 2 * (magnitude m' q' - lowerEnd m' q') ≤ magnitude m' q' := by
  have hLower := lower_le m' q'
  have hRoom := (room h h' hLess).2.1
  zify [show 2 * (interval m' q').lower ≤ 2 * (4 * m') by omega] at hRoom
  have hScaled := mul_le_mul_of_nonneg_right (Int.cast_le (R := ℚ).mpr hRoom) (quarter_pos q).le
  rw [lowerEnd, magnitude_eq, magnitude_eq, quarter_eq hLess.le]
  push_cast at hScaled ⊢
  linarith

theorem room_above_of_even (h : Canonical m q) (h' : Canonical m' q') (hLess : Less m q m' q')
    (hEven : m % 2 = 0) (hEven' : m' % 2 = 0) :
    magnitude m q + 2 * (upperEnd m q - magnitude m q) < magnitude m' q' := by
  have hRoom : ((4 * m + 4 : Nat) : ℚ) < (4 * m' * 2 ^ (q' - q).toNat : Nat) :=
    Nat.cast_lt.mpr ((room h h' hLess).2.2 hEven hEven')
  have hScaled := mul_lt_mul_of_pos_right hRoom (quarter_pos q)
  rw [upperEnd_eq, magnitude_eq, magnitude_eq, quarter_eq hLess.le]
  push_cast at hScaled ⊢
  linarith

theorem exists_next (h : Canonical m q) : ∃ m' q', Canonical m' q' ∧ Less m q m' q' ∧
    magnitude m' q' = magnitude m q + 2 * (upperEnd m q - magnitude m q) := by
  obtain ⟨hShort, hLeast, hFull⟩ := h
  by_cases hLast : m + 1 < 2 ^ 53
  · refine ⟨m + 1, q, ⟨hLast, hLeast, by omega⟩, Or.inr ⟨rfl, by omega⟩, ?_⟩
    rw [upperEnd_eq, magnitude_eq, magnitude_eq]
    push_cast
    ring
  · obtain rfl : m = 2 ^ 53 - 1 := by omega
    refine ⟨2 ^ 52, q + 1, ⟨by omega, by omega, by omega⟩, Or.inl (by omega), ?_⟩
    have hOne : (q + 1 - q).toNat = 1 := by omega
    rw [upperEnd_eq, magnitude_eq, magnitude_eq, quarter_eq (by omega : q ≤ q + 1), hOne]
    norm_num
    ring

theorem exists_previous (h : Canonical m q) (hPos : 0 < m) : ∃ m' q', Canonical m' q' ∧
    Less m' q' m q ∧ magnitude m' q' = magnitude m q - 2 * (magnitude m q - lowerEnd m q) := by
  obtain ⟨hShort, hLeast, hFull⟩ := h
  rcases lower_cases m q with ⟨rfl, hAbove, hLower⟩ | ⟨hNot, hLower⟩
  · refine ⟨2 ^ 53 - 1, q - 1, ⟨by omega, by omega, by omega⟩, Or.inl (by omega), ?_⟩
    have hOne : (q - (q - 1)).toNat = 1 := by omega
    rw [lowerEnd, hLower, magnitude_eq, magnitude_eq, quarter_eq (by omega : q - 1 ≤ q), hOne]
    norm_num
    ring
  · refine ⟨m - 1, q, ⟨by omega, hLeast, by omega⟩, Or.inr ⟨rfl, by omega⟩, ?_⟩
    obtain ⟨k, rfl⟩ : ∃ k, m = k + 1 := ⟨m - 1, by omega⟩
    have hTwo : 4 * (k + 1) - 2 = 4 * k + 2 := by omega
    rw [lowerEnd, hLower, hTwo, magnitude_eq, magnitude_eq, Nat.add_sub_cancel]
    push_cast
    ring

theorem magnitude_lt_upperEnd (m : Nat) (q : Int) : magnitude m q < upperEnd m q := by
  rw [magnitude_eq, upperEnd_eq]
  exact mul_lt_mul_of_pos_right (Nat.cast_lt.mpr (by omega)) (quarter_pos q)

theorem lowerEnd_lt (hPos : 0 < m) : lowerEnd m q < magnitude m q := by
  have hLower := lower_cases m q
  rw [magnitude_eq, lowerEnd]
  exact mul_lt_mul_of_pos_right (Nat.cast_lt.mpr (by omega)) (quarter_pos q)

theorem within_magnitude (m : Nat) (q : Int) : Within m q (magnitude m q) := by
  have hAbove := magnitude_lt_upperEnd m q
  have hBelow : lowerEnd m q ≤ magnitude m q := by
    rw [magnitude_eq, lowerEnd]
    exact mul_le_mul_of_nonneg_right (Nat.cast_le.mpr (lower_le m q)) (quarter_pos q).le
  exact ⟨hBelow, hAbove.le, fun hOdd => ⟨lowerEnd_lt (by omega), hAbove⟩⟩

theorem magnitude_lt (h : Canonical m q) (h' : Canonical m' q') (hLess : Less m q m' q') :
    magnitude m q < magnitude m' q' := by
  have hRoom := room_above h h' hLess
  have hUpper := magnitude_lt_upperEnd m q
  linarith

-- ----------------------------------------------------------------------------
-- Nearest numbers
-- ----------------------------------------------------------------------------

theorem upper_nearer_iff {a b : ℚ} (hLess : a < b) : |r - b| ≤ |r - a| ↔ a + b ≤ 2 * r := by
  rw [← sq_le_sq]
  constructor
  · intro hSquares
    nlinarith
  · intro hMiddle
    nlinarith

theorem lower_nearer_iff {a b : ℚ} (hLess : a < b) : |r - a| ≤ |r - b| ↔ 2 * r ≤ a + b := by
  rw [← sq_le_sq]
  constructor
  · intro hSquares
    nlinarith
  · intro hMiddle
    nlinarith

theorem Within.reads (h : Canonical m q) (hWithin : Within m q r) : Reads m q r := by
  obtain ⟨hAbove, hBelow, hInside⟩ := hWithin
  constructor
  · intro m' q' h'
    rcases less_trichotomy m q m' q' with hLess | ⟨rfl, rfl⟩ | hLess
    · have hRoom := room_above h h' hLess
      exact (lower_nearer_iff (magnitude_lt h h' hLess)).mpr (by linarith)
    · exact le_rfl
    · have hRoom := room_below h' h hLess
      exact (upper_nearer_iff (magnitude_lt h' h hLess)).mpr (by linarith)
  · intro m' q' h' hSame
    rcases less_trichotomy m q m' q' with hLess | ⟨rfl, rfl⟩ | hLess
    · have hRoom := room_above h h' hLess
      have hMiddle := (upper_nearer_iff (magnitude_lt h h' hLess)).mp hSame.ge
      -- half-way to the next number is the end of the interval
      by_contra hOdd
      have hEnd := (hInside (by omega)).2
      linarith
    · exact Or.inl ⟨rfl, rfl⟩
    · have hRoom := room_below h' h hLess
      have hMiddle := (lower_nearer_iff (magnitude_lt h' h hLess)).mp hSame.ge
      by_contra hOdd
      have hEnd := (hInside (by omega)).1
      linarith

theorem Reads.below (h : Canonical m q) (hReads : Reads m q r) :
    r ≤ upperEnd m q ∧ (m % 2 = 1 → r < upperEnd m q) := by
  obtain ⟨mNext, qNext, hNext, hLess, hMagnitude⟩ := exists_next h
  have hNear := lower_nearer_iff (r := r) (magnitude_lt h hNext hLess)
  have hBelow := hNear.mp (hReads.nearest hNext)
  refine ⟨by linarith, fun hOdd => lt_of_le_of_ne (by linarith) fun hEnd => ?_⟩
  have hTie : |r - magnitude mNext qNext| ≤ |r - magnitude m q| :=
    (upper_nearer_iff (magnitude_lt h hNext hLess)).mpr (by linarith)
  have hEven := hReads.even hNext (le_antisymm (hReads.nearest hNext) hTie)
  unfold Less at hLess
  omega

theorem Reads.above (h : Canonical m q) (hPos : 0 < m) (hReads : Reads m q r) :
    lowerEnd m q ≤ r ∧ (m % 2 = 1 → lowerEnd m q < r) := by
  obtain ⟨mPrev, qPrev, hPrev, hLess, hMagnitude⟩ := exists_previous h hPos
  have hNear := upper_nearer_iff (r := r) (magnitude_lt hPrev h hLess)
  have hAbove := hNear.mp (hReads.nearest hPrev)
  refine ⟨by linarith, fun hOdd => lt_of_le_of_ne (by linarith) fun hEnd => ?_⟩
  have hTie : |r - magnitude mPrev qPrev| ≤ |r - magnitude m q| :=
    (lower_nearer_iff (magnitude_lt hPrev h hLess)).mpr (by linarith)
  have hEven := hReads.even hPrev (le_antisymm (hReads.nearest hPrev) hTie)
  unfold Less at hLess
  omega

theorem Reads.within (h : Canonical m q) (hPos : 0 < m) (hReads : Reads m q r) : Within m q r := by
  obtain ⟨hBelow, hBelowEnd⟩ := hReads.below h
  obtain ⟨hAbove, hAboveEnd⟩ := hReads.above h hPos
  exact ⟨hAbove, hBelow, fun hOdd => ⟨hAboveEnd hOdd, hBelowEnd hOdd⟩⟩

/-- **What is read as a number is its interval.** -/
theorem reads_iff (h : Canonical m q) (hPos : 0 < m) : Reads m q r ↔ Within m q r :=
  ⟨Reads.within h hPos, Within.reads h⟩

/-- **The intervals of different numbers are apart.** The smaller one may be zero. -/
theorem Reads.lt_of_less (h : Canonical m q) (h' : Canonical m' q') (hLess : Less m q m' q')
    (hReads : Reads m q r) (hReads' : Reads m' q' r') : r < r' := by
  have hPos' : 0 < m' := by
    have hFull := h'.full
    have hLeast := h.least
    unfold Less at hLess
    omega
  obtain ⟨hBelow, hBelowEnd⟩ := hReads.below h
  obtain ⟨hAbove, hAboveEnd⟩ := hReads'.above h' hPos'
  have hRoom := room_above h h' hLess
  have hRoom' := room_below h h' hLess
  rcases Nat.mod_two_eq_zero_or_one m with hEven | hOdd
  · rcases Nat.mod_two_eq_zero_or_one m' with hEven' | hOdd'
    · have hStrict := room_above_of_even h h' hLess hEven hEven'
      linarith
    · have hStrict := hAboveEnd hOdd'
      linarith
  · have hStrict := hBelowEnd hOdd
    linarith

/-- A rational is read as one number only. -/
theorem Reads.unique (h : Canonical m q) (h' : Canonical m' q') (hReads : Reads m q r)
    (hReads' : Reads m' q' r) : m = m' ∧ q = q' := by
  rcases less_trichotomy m q m' q' with hLess | hSame | hLess
  · exact absurd (hReads.lt_of_less h h' hLess hReads') (lt_irrefl r)
  · exact hSame
  · exact absurd (hReads'.lt_of_less h' h hLess hReads) (lt_irrefl r)

end Room

end Zaban.Binary
