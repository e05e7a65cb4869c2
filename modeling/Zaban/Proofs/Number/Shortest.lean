import Mathlib
import Zaban.Proofs.Number.Nearest

/-!
# The shortest decimal of a number

`Binary.shortest` looks for a decimal that is read as the number on the grids
`10 ^ t`, from coarse to fine. On one grid it looks next to the number only, which
is enough: it takes the nearest point that is read as the number
(`nearestOn_of_onGrid?`), or there is none (`not_within_of_onGrid?`). It finds a
decimal, since no grid above the first that it looks at has one
(`not_within_above`) and the twentieth grid has (`exists_within`).

So nothing on a coarser grid is read as the number. Then no decimal with fewer
digits is: between two decimals with different numbers of digits stands a power of
ten, which is a point of a coarser grid (`digits_length_le`). This is what
`shortest_spec` says.
-/

namespace Zaban

-- ----------------------------------------------------------------------------
-- Decimals
-- ----------------------------------------------------------------------------

namespace Decimal

variable {d : Decimal}

/-- The number that the decimal is. -/
def value (d : Decimal) : ℚ :=
  d.coefficient * 10 ^ d.exponent

theorem digits_length_pos (d : Decimal) : 0 < d.digits.length :=
  Nat.length_toDigits_pos

theorem coefficient_lt (d : Decimal) : d.coefficient < 10 ^ d.digits.length :=
  (Nat.length_toDigits_le_iff (by decide) d.digits_length_pos).mp le_rfl

theorem le_coefficient (hPos : 0 < d.coefficient) :
    10 ^ (d.digits.length - 1) ≤ d.coefficient := by
  by_cases hOne : d.digits.length - 1 = 0
  · rw [hOne]
    exact hPos
  · by_contra hLess
    have hShort : d.digits.length ≤ d.digits.length - 1 :=
      (Nat.length_toDigits_le_iff (by decide) (by omega)).mpr (Nat.lt_of_not_le hLess)
    omega

theorem value_lt (d : Decimal) : d.value < 10 ^ (d.scientific + 1) := by
  have hDigits : (d.coefficient : ℚ) < 10 ^ (d.digits.length : ℤ) := by
    exact_mod_cast d.coefficient_lt
  calc d.value < 10 ^ (d.digits.length : ℤ) * 10 ^ d.exponent :=
        mul_lt_mul_of_pos_right hDigits (by positivity)
    _ = 10 ^ (d.scientific + 1) := by
        rw [← zpow_add₀ (by norm_num), scientific]
        congr 1
        ring

theorem le_value (hPos : 0 < d.coefficient) : 10 ^ d.scientific ≤ d.value := by
  have hLength := d.digits_length_pos
  have hDigits : (10 : ℚ) ^ ((d.digits.length - 1 : ℕ) : ℤ) ≤ d.coefficient := by
    exact_mod_cast le_coefficient hPos
  calc (10 : ℚ) ^ d.scientific
      = 10 ^ ((d.digits.length - 1 : ℕ) : ℤ) * 10 ^ d.exponent := by
        rw [← zpow_add₀ (by norm_num), scientific]
        congr 1
        omega
    _ ≤ d.value := mul_le_mul_of_nonneg_right hDigits (by positivity)

/-- The exponent of the first digit, from the value. -/
theorem scientific_lt_iff (hPos : 0 < d.coefficient) {k : Int} :
    d.scientific < k ↔ d.value < 10 ^ k := by
  constructor
  · intro hLess
    exact d.value_lt.trans_le (zpow_le_zpow_right₀ (by norm_num) (by omega))
  · intro hLess
    exact (zpow_lt_zpow_iff_right₀ (by norm_num)).mp ((le_value hPos).trans_lt hLess)

end Decimal

namespace Binary

-- ----------------------------------------------------------------------------
-- One grid
-- ----------------------------------------------------------------------------

/-- The unit of an `Interval`, in a measure that it has in common with the grid `10 ^ t`. -/
def gridNumerator (q t : Int) : Nat :=
  Nat.pow 2 (q - 2).toNat * Nat.pow 10 (-t).toNat

/-- The unit of the grid `10 ^ t`, in the same measure. -/
def gridDenominator (q t : Int) : Nat :=
  Nat.pow 2 (2 - q).toNat * Nat.pow 10 t.toNat

section Grid

variable {m : Nat} {q t : Int} {r s : ℚ} {tie : Tie} {d : Decimal}

theorem zpow_eq_div {b : ℚ} (hPos : 0 < b) (k : Int) : b ^ k = b ^ k.toNat / b ^ (-k).toNat := by
  rw [eq_div_iff (by positivity), ← zpow_natCast, ← zpow_natCast, ← zpow_add₀ hPos.ne']
  congr 1
  omega

theorem gridDenominator_pos (q t : Int) : 0 < gridDenominator q t :=
  Nat.mul_pos (Nat.pow_pos (by decide)) (Nat.pow_pos (by decide))

/-- The two units have a common measure. -/
theorem exists_common_unit (q t : Int) : ∃ u : ℚ, 0 < u ∧
    gridNumerator q t * u = quarter q ∧ gridDenominator q t * u = 10 ^ t := by
  have hDenominator : (0 : ℚ) < gridDenominator q t := Nat.cast_pos.mpr (gridDenominator_pos q t)
  refine ⟨10 ^ t / gridDenominator q t, by positivity, ?_, by field_simp⟩
  rw [mul_div_assoc', div_eq_iff hDenominator.ne']
  unfold quarter gridNumerator gridDenominator
  rw [zpow_eq_div (by norm_num : (0 : ℚ) < 2), zpow_eq_div (by norm_num : (0 : ℚ) < 10), neg_sub]
  simp only [Nat.pow_eq, Nat.cast_mul, Nat.cast_pow, Nat.cast_ofNat]
  field_simp

theorem units_le_grid_iff (q t : Int) (a c : Nat) :
    a * gridNumerator q t ≤ c * gridDenominator q t ↔ (a : ℚ) * quarter q ≤ c * 10 ^ t := by
  obtain ⟨u, hPos, hNumerator, hDenominator⟩ := exists_common_unit q t
  rw [← hNumerator, ← hDenominator, ← mul_assoc, ← mul_assoc, mul_le_mul_iff_left₀ hPos]
  exact_mod_cast Iff.rfl

theorem grid_le_units_iff (q t : Int) (a c : Nat) :
    c * gridDenominator q t ≤ a * gridNumerator q t ↔ (c : ℚ) * 10 ^ t ≤ a * quarter q := by
  obtain ⟨u, hPos, hNumerator, hDenominator⟩ := exists_common_unit q t
  rw [← hNumerator, ← hDenominator, ← mul_assoc, ← mul_assoc, mul_le_mul_iff_left₀ hPos]
  exact_mod_cast Iff.rfl

theorem holds_iff (c : Nat) :
    (interval m q).holds (gridNumerator q t) (gridDenominator q t) c = true ↔
      Within m q (c * 10 ^ t) := by
  have hAbove := units_le_grid_iff q t (interval m q).lower c
  have hBelow := grid_le_units_iff q t (interval m q).upper c
  have hInsideAbove := (grid_le_units_iff q t (interval m q).lower c).not
  have hInsideBelow := (units_le_grid_iff q t (interval m q).upper c).not
  rw [not_le, not_le] at hInsideAbove hInsideBelow
  have hClosed : (interval m q).closed = decide (m % 2 = 0) := rfl
  unfold Interval.holds
  rw [hClosed]
  by_cases hEven : m % 2 = 0
  · rw [if_pos (decide_eq_true hEven), Bool.and_eq_true, decide_eq_true_iff, decide_eq_true_iff,
      hAbove, hBelow]
    exact ⟨fun ⟨h, h'⟩ => ⟨h, h', fun hOdd => by omega⟩, fun h => ⟨h.above, h.below⟩⟩
  · rw [if_neg (by simpa using hEven), Bool.and_eq_true, decide_eq_true_iff, decide_eq_true_iff,
      hInsideAbove, hInsideBelow]
    exact ⟨fun ⟨h, h'⟩ => ⟨h.le, h'.le, fun _ => ⟨h, h'⟩⟩, fun h => h.inside (by omega)⟩

theorem Within.between (h : Within m q r) (h' : Within m q s) {x : ℚ} (hLe : r ≤ x) (hLe' : x ≤ s) :
    Within m q x :=
  ⟨h.above.trans hLe, hLe'.trans h'.below, fun hOdd =>
    ⟨(h.inside hOdd).1.trans_le hLe, hLe'.trans_lt (h'.inside hOdd).2⟩⟩

/-- The last point of the grid `10 ^ t` that is not above the number. -/
def gridBelow (m : Nat) (q t : Int) : Nat :=
  4 * m * gridNumerator q t / gridDenominator q t

theorem gridBelow_le (m : Nat) (q t : Int) : (gridBelow m q t : ℚ) * 10 ^ t ≤ magnitude m q := by
  rw [magnitude_eq]
  exact (grid_le_units_iff _ _ _ _).mp (Nat.div_mul_le_self _ _)

theorem lt_gridBelow_succ (m : Nat) (q t : Int) :
    magnitude m q < ((gridBelow m q t + 1 : Nat) : ℚ) * 10 ^ t := by
  rw [magnitude_eq, ← not_le, ← grid_le_units_iff, not_le]
  exact Nat.lt_mul_of_div_lt (Nat.lt_succ_self _) (gridDenominator_pos q t)

/-- The points of a grid next to a number. -/
theorem grid_cases (m : Nat) (q t : Int) (c : Nat) :
    (c : ℚ) * 10 ^ t ≤ gridBelow m q t * 10 ^ t ∨
      ((gridBelow m q t + 1 : Nat) : ℚ) * 10 ^ t ≤ c * 10 ^ t := by
  have hTen : (0 : ℚ) < 10 ^ t := by positivity
  rw [mul_le_mul_iff_left₀ hTen, mul_le_mul_iff_left₀ hTen, Nat.cast_le, Nat.cast_le]
  omega

/-- Is the point above the number taken, of the two that are next to it? -/
def takesAbove (tie : Tie) (m : Nat) (q t : Int) : Bool :=
  let toBelow := 4 * m * gridNumerator q t - gridBelow m q t * gridDenominator q t
  let toAbove := (gridBelow m q t + 1) * gridDenominator q t - 4 * m * gridNumerator q t
  toAbove < toBelow || (toAbove = toBelow && (tie = .up || (gridBelow m q t + 1) % 2 = 0))

theorem onGrid?_cases (tie : Tie) (m : Nat) (q t : Int) :
    (Within m q (gridBelow m q t * 10 ^ t) ∧ Within m q ((gridBelow m q t + 1 : Nat) * 10 ^ t) ∧
      onGrid? tie m q t =
        some ⟨if takesAbove tie m q t then gridBelow m q t + 1 else gridBelow m q t, t⟩) ∨
    (Within m q (gridBelow m q t * 10 ^ t) ∧ ¬ Within m q ((gridBelow m q t + 1 : Nat) * 10 ^ t) ∧
      onGrid? tie m q t = some ⟨gridBelow m q t, t⟩) ∨
    (¬ Within m q (gridBelow m q t * 10 ^ t) ∧ Within m q ((gridBelow m q t + 1 : Nat) * 10 ^ t) ∧
      onGrid? tie m q t = some ⟨gridBelow m q t + 1, t⟩) ∨
    (¬ Within m q (gridBelow m q t * 10 ^ t) ∧ ¬ Within m q ((gridBelow m q t + 1 : Nat) * 10 ^ t) ∧
      onGrid? tie m q t = none) := by
  have hFalse {b : Bool} (h : b = false) : ¬ b = true := by
    rw [h]
    exact Bool.false_ne_true
  unfold onGrid?
  dsimp only
  split
  next hBelow hAbove =>
    exact Or.inl ⟨(holds_iff _).mp hBelow, (holds_iff _).mp hAbove, rfl⟩
  next hBelow hAbove =>
    exact Or.inr (Or.inl ⟨(holds_iff _).mp hBelow, mt (holds_iff _).mpr (hFalse hAbove), rfl⟩)
  next hBelow hAbove =>
    exact Or.inr (Or.inr (Or.inl
      ⟨mt (holds_iff _).mpr (hFalse hBelow), (holds_iff _).mp hAbove, rfl⟩))
  next hBelow hAbove =>
    exact Or.inr (Or.inr (Or.inr
      ⟨mt (holds_iff _).mpr (hFalse hBelow), mt (holds_iff _).mpr (hFalse hAbove), rfl⟩))

/-- The decimal `d` is read as the number, and no point of its grid that is read as the number is
nearer to it. -/
structure NearestOn (m : Nat) (q t : Int) (d : Decimal) : Prop where
  exponent : d.exponent = t
  within   : Within m q d.value
  nearest  : ∀ c : Nat, Within m q (c * 10 ^ t) →
    |d.value - magnitude m q| ≤ |c * 10 ^ t - magnitude m q|

/-- The sum of the points next to the number and twice the number, in either unit. -/
theorem two_mul_middle (m : Nat) (q t : Int) :
    ((gridBelow m q t + 1) * gridDenominator q t + gridBelow m q t * gridDenominator q t ≤
        2 * (4 * m * gridNumerator q t) ↔
      (gridBelow m q t : ℚ) * 10 ^ t + ((gridBelow m q t + 1 : Nat) : ℚ) * 10 ^ t ≤
        2 * magnitude m q) ∧
    (2 * (4 * m * gridNumerator q t) ≤
        (gridBelow m q t + 1) * gridDenominator q t + gridBelow m q t * gridDenominator q t ↔
      2 * magnitude m q ≤
        (gridBelow m q t : ℚ) * 10 ^ t + ((gridBelow m q t + 1 : Nat) : ℚ) * 10 ^ t) := by
  have hLe := grid_le_units_iff q t (2 * (4 * m)) (gridBelow m q t + 1 + gridBelow m q t)
  have hGe := units_le_grid_iff q t (2 * (4 * m)) (gridBelow m q t + 1 + gridBelow m q t)
  rw [Nat.add_mul, Nat.mul_assoc 2] at hLe hGe
  have hTwice : ((2 * (4 * m) : Nat) : ℚ) * quarter q = 2 * magnitude m q := by
    rw [magnitude_eq]
    push_cast
    ring
  have hSum : ((gridBelow m q t + 1 + gridBelow m q t : Nat) : ℚ) * 10 ^ t =
      gridBelow m q t * 10 ^ t + ((gridBelow m q t + 1 : Nat) : ℚ) * 10 ^ t := by
    push_cast
    ring
  rw [hTwice, hSum] at hLe hGe
  exact ⟨hLe, hGe⟩

/-- The point that is taken is no farther away than the other one. -/
theorem takesAbove_cases (tie : Tie) (m : Nat) (q t : Int) :
    takesAbove tie m q t = true ∧
      |((gridBelow m q t + 1 : Nat) : ℚ) * 10 ^ t - magnitude m q| ≤
        |gridBelow m q t * 10 ^ t - magnitude m q| ∨
    takesAbove tie m q t = false ∧
      |gridBelow m q t * 10 ^ t - magnitude m q| ≤
        |((gridBelow m q t + 1 : Nat) : ℚ) * 10 ^ t - magnitude m q| := by
  have hLess := (gridBelow_le m q t).trans_lt (lt_gridBelow_succ m q t)
  obtain ⟨hLe, hGe⟩ := two_mul_middle m q t
  rw [abs_sub_comm, abs_sub_comm _ (magnitude m q), upper_nearer_iff hLess, lower_nearer_iff hLess,
    ← hLe, ← hGe]
  have hBelow : gridBelow m q t * gridDenominator q t ≤ 4 * m * gridNumerator q t :=
    Nat.div_mul_le_self _ _
  have hAbove : 4 * m * gridNumerator q t < (gridBelow m q t + 1) * gridDenominator q t :=
    Nat.lt_mul_of_div_lt (Nat.lt_succ_self _) (gridDenominator_pos q t)
  unfold takesAbove
  by_cases hNearer : (gridBelow m q t + 1) * gridDenominator q t - 4 * m * gridNumerator q t <
      4 * m * gridNumerator q t - gridBelow m q t * gridDenominator q t
  · exact Or.inl ⟨by simp [hNearer], by omega⟩
  · by_cases hSame : (gridBelow m q t + 1) * gridDenominator q t - 4 * m * gridNumerator q t =
        4 * m * gridNumerator q t - gridBelow m q t * gridDenominator q t
    · exact (Bool.eq_false_or_eq_true _).imp (⟨·, by omega⟩) (⟨·, by omega⟩)
    · exact Or.inr ⟨by simp [hNearer, hSame], by omega⟩

/-- On its side of the number, a point next to it is the nearest. -/
theorem gridBelow_distance_le {x : ℚ} (hSide : x ≤ gridBelow m q t * 10 ^ t) :
    |gridBelow m q t * 10 ^ t - magnitude m q| ≤ |x - magnitude m q| := by
  have hBelow := gridBelow_le m q t
  rw [abs_sub_comm, abs_sub_comm x, abs_of_nonneg (by linarith), abs_of_nonneg (by linarith)]
  linarith

theorem gridAbove_distance_le {x : ℚ} (hSide : ((gridBelow m q t + 1 : Nat) : ℚ) * 10 ^ t ≤ x) :
    |((gridBelow m q t + 1 : Nat) : ℚ) * 10 ^ t - magnitude m q| ≤ |x - magnitude m q| := by
  have hAbove := lt_gridBelow_succ m q t
  rw [abs_of_nonneg (by linarith), abs_of_nonneg (by linarith)]
  linarith

theorem nearestOn_of_onGrid? (h : onGrid? tie m q t = some d) : NearestOn m q t d := by
  have hBelow := gridBelow_le m q t
  have hAbove := lt_gridBelow_succ m q t
  have hNumber := within_magnitude m q
  rcases onGrid?_cases tie m q t with
    ⟨hWithin, hWithin', hGrid⟩ | ⟨hWithin, hNot, hGrid⟩ | ⟨hNot, hWithin, hGrid⟩ | ⟨-, -, hGrid⟩
  · obtain rfl := Option.some.inj (hGrid.symm.trans h)
    rcases takesAbove_cases tie m q t with ⟨hTakes, hNearer⟩ | ⟨hTakes, hNearer⟩
    · rw [hTakes, if_pos rfl]
      refine ⟨rfl, hWithin', fun c _ => ?_⟩
      rcases grid_cases m q t c with hSide | hSide
      · exact hNearer.trans (gridBelow_distance_le hSide)
      · exact gridAbove_distance_le hSide
    · rw [hTakes, if_neg Bool.false_ne_true]
      refine ⟨rfl, hWithin, fun c _ => ?_⟩
      rcases grid_cases m q t c with hSide | hSide
      · exact gridBelow_distance_le hSide
      · exact hNearer.trans (gridAbove_distance_le hSide)
  · obtain rfl := Option.some.inj (hGrid.symm.trans h)
    refine ⟨rfl, hWithin, fun c hc => ?_⟩
    rcases grid_cases m q t c with hSide | hSide
    · exact gridBelow_distance_le hSide
    · exact absurd (hNumber.between hc hAbove.le hSide) hNot
  · obtain rfl := Option.some.inj (hGrid.symm.trans h)
    refine ⟨rfl, hWithin, fun c hc => ?_⟩
    rcases grid_cases m q t c with hSide | hSide
    · exact absurd (hc.between hNumber hSide hBelow) hNot
    · exact gridAbove_distance_le hSide
  · exact absurd (hGrid.symm.trans h) (Option.some_ne_none d).symm

theorem not_within_of_onGrid? (h : onGrid? tie m q t = none) (c : Nat) :
    ¬ Within m q (c * 10 ^ t) := by
  intro hc
  have hNumber := within_magnitude m q
  rcases onGrid?_cases tie m q t with
    ⟨-, -, hGrid⟩ | ⟨-, -, hGrid⟩ | ⟨-, -, hGrid⟩ | ⟨hNot, hNot', -⟩
  iterate 3 exact absurd (hGrid.symm.trans h) (Option.some_ne_none _)
  rcases grid_cases m q t c with hSide | hSide
  · exact hNot (hc.between hNumber hSide (gridBelow_le m q t))
  · exact hNot' (hNumber.between hc (lt_gridBelow_succ m q t).le hSide)

end Grid

-- ----------------------------------------------------------------------------
-- Powers of two and of ten
-- ----------------------------------------------------------------------------

section Powers

variable {l e : Int}

theorem two_zpow_le_of_nonneg (hNonneg : 0 ≤ l) (h : 28 * l ≤ 93 * e) : (2 : ℚ) ^ l ≤ 10 ^ e := by
  refine (pow_le_pow_iff_left₀ (by positivity) (by positivity) (by decide : 93 ≠ 0)).mp ?_
  calc ((2 : ℚ) ^ l) ^ 93 = (2 ^ 93) ^ l := by
        rw [← zpow_natCast, ← zpow_natCast, ← zpow_mul, ← zpow_mul, mul_comm]
    _ ≤ (10 ^ 28) ^ l := zpow_le_zpow_left₀ hNonneg (by norm_num) (by norm_num)
    _ = 10 ^ (28 * l) := by rw [← zpow_natCast, ← zpow_mul]; rfl
    _ ≤ 10 ^ (93 * e) := zpow_le_zpow_right₀ (by norm_num) h
    _ = (10 ^ e) ^ 93 := by rw [← zpow_natCast, ← zpow_mul, mul_comm]; rfl

theorem ten_zpow_le_of_nonneg (hNonneg : 0 ≤ l) (h : 196 * e ≤ 59 * l) : (10 : ℚ) ^ e ≤ 2 ^ l := by
  refine (pow_le_pow_iff_left₀ (by positivity) (by positivity) (by decide : 196 ≠ 0)).mp ?_
  calc ((10 : ℚ) ^ e) ^ 196 = 10 ^ (196 * e) := by rw [← zpow_natCast, ← zpow_mul, mul_comm]; rfl
    _ ≤ 10 ^ (59 * l) := zpow_le_zpow_right₀ (by norm_num) h
    _ = (10 ^ 59) ^ l := by rw [← zpow_natCast, ← zpow_mul]; rfl
    _ ≤ (2 ^ 196) ^ l := zpow_le_zpow_left₀ hNonneg (by norm_num) (by norm_num)
    _ = (2 ^ l) ^ 196 := by
        rw [← zpow_natCast, ← zpow_natCast, ← zpow_mul, ← zpow_mul, mul_comm]

theorem zpow_le_zpow_of_neg {x y : ℚ} (hx : 0 < x) (hy : 0 < y) (h : y ^ (-e) ≤ x ^ (-l)) :
    x ^ l ≤ y ^ e := by
  rw [zpow_neg, zpow_neg] at h
  exact (inv_le_inv₀ (by positivity) (by positivity)).mp h

/-- The logarithm of two to the base ten is between `59 / 196` and `28 / 93`. -/
theorem two_zpow_le_ten_zpow (h : 0 ≤ l → 28 * l ≤ 93 * e) (h' : l ≤ 0 → 59 * l ≤ 196 * e) :
    (2 : ℚ) ^ l ≤ 10 ^ e := by
  rcases le_total 0 l with hNonneg | hNonpos
  · exact two_zpow_le_of_nonneg hNonneg (h hNonneg)
  · refine zpow_le_zpow_of_neg (by norm_num) (by norm_num) ?_
    exact ten_zpow_le_of_nonneg (by omega) (by have hRatio := h' hNonpos; omega)

theorem ten_zpow_le_two_zpow (h : 0 ≤ l → 196 * e ≤ 59 * l) (h' : l ≤ 0 → 93 * e ≤ 28 * l) :
    (10 : ℚ) ^ e ≤ 2 ^ l := by
  refine zpow_le_zpow_of_neg (by norm_num) (by norm_num) ?_
  exact two_zpow_le_ten_zpow (fun hl => by have hRatio := h' (by omega); omega)
    (fun hl => by have hRatio := h (by omega); omega)

end Powers

-- ----------------------------------------------------------------------------
-- The search
-- ----------------------------------------------------------------------------

section Search

variable {m : Nat} {q : Int} {r : ℚ} {tie : Tie} {d : Decimal}

/-- No point of a grid coarser than `10 ^ t`, up to `10 ^ top`, lies in the interval. -/
def NoneAbove (m : Nat) (q t top : Int) : Prop :=
  ∀ s, t < s → s ≤ top → ∀ c : Nat, ¬ Within m q (c * 10 ^ s)

/-- A search ends on the first grid that has a point in the interval. -/
theorem searchGrids_cases (tie : Tie) : ∀ (fuel : Nat) (t : Int),
    (∃ d, searchGrids tie m q fuel t = some d ∧ NearestOn m q d.exponent d ∧
      NoneAbove m q d.exponent t) ∨
    (searchGrids tie m q fuel t = none ∧ NoneAbove m q (t - fuel) t) := by
  intro fuel
  induction fuel with
  | zero =>
    intro t
    exact Or.inr ⟨rfl, fun s hAbove hTop => by omega⟩
  | succ fuel ih =>
    intro t
    have hStep : searchGrids tie m q (fuel + 1) t =
        (onGrid? tie m q t).or (searchGrids tie m q fuel (t - 1)) := rfl
    rw [hStep]
    cases hGrid : onGrid? tie m q t with
    | some d =>
      have hNearest := nearestOn_of_onGrid? hGrid
      refine Or.inl ⟨d, rfl, ?_, fun s hAbove hTop => ?_⟩
      · rwa [hNearest.exponent]
      · have hExponent := hNearest.exponent
        omega
    | none =>
      -- the first grid has no point, and the others are searched from the next one on
      have hNext {t' : Int} (h : NoneAbove m q t' (t - 1)) : NoneAbove m q t' t := by
        intro s hAbove hTop
        rcases eq_or_lt_of_le hTop with rfl | hBelow
        · exact not_within_of_onGrid? hGrid
        · exact h s hAbove (by omega)
      rw [Option.none_or]
      rcases ih (t - 1) with ⟨d, hFound, hNearest, hNone⟩ | ⟨hFound, hNone⟩
      · exact Or.inl ⟨d, hFound, hNearest, hNext hNone⟩
      · refine Or.inr ⟨hFound, hNext ?_⟩
        have hShift : t - 1 - fuel = t - ((fuel + 1 : Nat) : Int) := by omega
        rwa [← hShift]

theorem log2_le (h : Canonical m q) : m.log2 ≤ 52 := by
  by_cases hZero : m = 0
  · rw [hZero]
    decide
  · exact Nat.lt_succ_iff.mp ((Nat.log2_lt hZero).mpr h.short)

theorem upperEnd_lt (m : Nat) (q : Int) : upperEnd m q < 2 ^ ((m.log2 : Int) + 1 + q) := by
  have hBits : m + 1 ≤ 2 ^ (m.log2 + 1) := Nat.lt_log2_self
  have hUnits : ((4 * m + 2 : Nat) : ℚ) < ((4 * 2 ^ (m.log2 + 1) : Nat) : ℚ) :=
    Nat.cast_lt.mpr (by omega)
  calc upperEnd m q < ((4 * 2 ^ (m.log2 + 1) : Nat) : ℚ) * quarter q :=
        mul_lt_mul_of_pos_right hUnits (quarter_pos q)
    _ = magnitude (2 ^ (m.log2 + 1)) q := (magnitude_eq _ _).symm
    _ = 2 ^ ((m.log2 : Int) + 1 + q) := by
        unfold magnitude
        rw [zpow_add₀ (by norm_num)]
        push_cast
        rfl

theorem lowerEnd_pos (hPos : 0 < m) : 0 < lowerEnd m q := by
  have hLower := lower_cases m q
  exact mul_pos (Nat.cast_pos.mpr (by omega)) (quarter_pos q)

theorem Within.coefficient_pos (hPos : 0 < m) (h : Within m q d.value) : 0 < d.coefficient := by
  by_contra hNone
  obtain hZero : d.coefficient = 0 := by omega
  have hAbove := (lowerEnd_pos hPos).trans_le h.above
  rw [Decimal.value, hZero, Nat.cast_zero, zero_mul] at hAbove
  exact lt_irrefl 0 hAbove

/-- No grid above the first that is looked at has a point in the interval. -/
theorem not_within_above (h : InFormat m q) (hPos : 0 < m) {s : Int} (hAbove : coarsestGrid m q < s)
    (c : Nat) : ¬ Within m q (c * 10 ^ s) := by
  intro hWithin
  have hLog := log2_le h.toCanonical
  have hLeast := h.least
  have hMost := h.most
  unfold coarsestGrid at hAbove
  have hTen : (2 : ℚ) ^ ((m.log2 : Int) + 1 + q) ≤ 10 ^ s :=
    two_zpow_le_ten_zpow (fun _ => by omega) (fun _ => by omega)
  have hOne : (1 : ℚ) ≤ c := Nat.one_le_cast.mpr (hWithin.coefficient_pos (d := ⟨c, s⟩) hPos)
  have hPower : (10 : ℚ) ^ s ≤ c * 10 ^ s := le_mul_of_one_le_left (by positivity) hOne
  have hEnd := hWithin.below.trans_lt (upperEnd_lt m q)
  linarith

/-- The twentieth grid has a point in the interval. -/
theorem exists_within (h : InFormat m q) (hPos : 0 < m) :
    ∃ c : Nat, Within m q (c * 10 ^ (coarsestGrid m q - 19)) := by
  have hLog := log2_le h.toCanonical
  have hLeast := h.least
  have hMost := h.most
  have hNumber := within_magnitude m q
  have hTen : (10 : ℚ) ^ (coarsestGrid m q - 19) ≤ quarter q := by
    unfold coarsestGrid quarter
    exact ten_zpow_le_two_zpow (fun _ => by omega) (fun _ => by omega)
  have hBelow := gridBelow_le m q (coarsestGrid m q - 19)
  have hAbove := lt_gridBelow_succ m q (coarsestGrid m q - 19)
  refine ⟨gridBelow m q (coarsestGrid m q - 19) + 1, ?_⟩
  generalize gridBelow m q (coarsestGrid m q - 19) = below at hBelow hAbove ⊢
  have hUpper : ((below + 1 : Nat) : ℚ) * 10 ^ (coarsestGrid m q - 19) < upperEnd m q := by
    rw [magnitude_eq] at hBelow
    rw [upperEnd_eq]
    have hQuarter := quarter_pos q
    push_cast at hBelow ⊢
    linarith
  have hLower := lowerEnd_lt (q := q) hPos
  exact ⟨hLower.le.trans hAbove.le, hUpper.le, fun _ => ⟨hLower.trans hAbove, hUpper⟩⟩

/-- What is looked for: a decimal that is read as the number, with no more digits than any other one
and no farther away than any other one on its grid. -/
structure IsShortest (m : Nat) (q : Int) (d : Decimal) : Prop where
  reads   : Reads m q d.value
  fewest  : ∀ d' : Decimal, Reads m q d'.value → d.digits.length ≤ d'.digits.length
  nearest : ∀ d' : Decimal, d'.exponent = d.exponent → Reads m q d'.value →
    |d.value - magnitude m q| ≤ |d'.value - magnitude m q|
  trimmed : d.coefficient % 10 ≠ 0

/-- If no coarser grid has a point in the interval, no decimal with fewer digits lies there. -/
theorem digits_length_le (hPos : 0 < m) (h : Within m q d.value)
    (hNone : ∀ s, d.exponent < s → ∀ c : Nat, ¬ Within m q (c * 10 ^ s)) {d' : Decimal}
    (h' : Within m q d'.value) : d.digits.length ≤ d'.digits.length := by
  by_contra hFewer
  have hExponent : d'.exponent ≤ d.exponent := by
    by_contra hCoarser
    exact hNone d'.exponent (by omega) d'.coefficient h'
  have hLength := d'.digits_length_pos
  have hFirst : d'.scientific + 1 ≤ d.scientific := by
    unfold Decimal.scientific
    omega
  -- the power of ten at the first digit stands between the two
  have hBelow : d'.value ≤ 10 ^ d.scientific :=
    d'.value_lt.le.trans (zpow_le_zpow_right₀ (by norm_num) hFirst)
  have hPower := h'.between h hBelow (Decimal.le_value (h.coefficient_pos hPos))
  refine hNone d.scientific ?_ 1 (by rwa [Nat.cast_one, one_mul])
  unfold Decimal.scientific
  omega

/-- **A number has a shortest decimal, and the search finds it.** -/
theorem shortest_spec (tie : Tie) (h : InFormat m q) (hPos : 0 < m) :
    IsShortest m q (shortest tie m q) := by
  have hReads {r : ℚ} : Reads m q r ↔ Within m q r := reads_iff h.toCanonical hPos
  rcases searchGrids_cases tie (m := m) (q := q) 20 (coarsestGrid m q) with
    ⟨d, hFound, hNearest, hNone⟩ | ⟨-, hNone⟩
  · have hCoarser (s : Int) (hs : d.exponent < s) (c : Nat) : ¬ Within m q (c * 10 ^ s) := by
      by_cases hTop : s ≤ coarsestGrid m q
      · exact hNone s hs hTop c
      · exact not_within_above h hPos (by omega) c
    have hTrimmed : d.coefficient % 10 ≠ 0 := by
      intro hZero
      refine hCoarser (d.exponent + 1) (by omega) (d.coefficient / 10) ?_
      have hSame : ((d.coefficient / 10 : Nat) : ℚ) * 10 ^ (d.exponent + 1) = d.value := by
        have hTen : d.coefficient = d.coefficient / 10 * 10 := by omega
        rw [Decimal.value, zpow_add₀ (by norm_num), zpow_one]
        conv_rhs => rw [hTen]
        push_cast
        ring
      rw [hSame]
      exact hNearest.within
    have hShortest : shortest tie m q = d := by
      unfold shortest
      dsimp only
      rw [hFound, Option.getD_some, Decimal.trim, if_neg hTrimmed]
    rw [hShortest]
    refine ⟨hReads.mpr hNearest.within, fun d' h' => ?_, fun d' hExponent h' => ?_, hTrimmed⟩
    · exact digits_length_le hPos hNearest.within hCoarser (hReads.mp h')
    · have hOther := hNearest.nearest d'.coefficient
      rw [← hExponent] at hOther
      exact hOther (hReads.mp h')
  · obtain ⟨c, hc⟩ := exists_within h hPos
    exact absurd hc (hNone _ (by omega) (by omega) c)

end Search

end Binary

end Zaban
