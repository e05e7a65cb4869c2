import Mathlib.Tactic.NormNum
import Zaban.Proofs.Syntax.Stored

/-!
# Numbers that stay finite

A number in a text is a word with a decimal exponent. The reader multiplies the
word by a power of ten and refuses what overflows, or it divides it, and for
that it does not look at the result. It need not: the number that comes out is
finite either way (`Json.fromParts_finite`).

To see this the exponents of the numbers are followed through the arithmetic. A
number is `Tame` up to a bound if its exponent is at most the bound, and it is
finite exactly if it is tame up to the largest exponent (`isFinite_iff`).
Rounding raises an exponent by one at most (`roundWithAccuracy_cases`), and so
does dividing by what is at least one (`tame_div`). The powers of ten are at
least one (`powerOfTen_spec`), words have small exponents (`tame_ofNat`), and
there are only a few divisions.
-/

namespace Zaban

open Float.Model Float.Model.UnpackedFloat

-- ----------------------------------------------------------------------------
-- Rounding
-- ----------------------------------------------------------------------------

/-- Zero, or a number with an exponent of at most `bound`. -/
def Tame (bound : Int) : UnpackedFloat → Prop
  | .zero _ => True
  | .finite _ m e _ => m < 2 ^ 53 ∧ e ≤ bound
  | .infinity _ | .notANumber => False

instance (bound : Int) : DecidablePred (Tame bound)
  | .zero _ => isTrue trivial
  | .finite _ m e _ => inferInstanceAs (Decidable (m < 2 ^ 53 ∧ e ≤ bound))
  | .infinity _ | .notANumber => isFalse id

section Rounding

theorem targetExponent_eq (t : Int) :
    Format.binary64.targetExponent t = max (t - 53) (-1074) := rfl

theorem mantissa_shiftRight (em : ExtendedMantissa) (k : Nat) :
    (em >>> k).mantissa = em.mantissa / 2 ^ k := by
  induction k with
  | zero => simp [HShiftRight.hShiftRight, Nat.repeat]
  | succ k ih =>
    change (em >>> k).mantissa / 2 = _
    rw [ih, Nat.div_div_eq_div_mul, Nat.pow_succ]

theorem roundedMantissa_bounds (em : ExtendedMantissa) :
    em.mantissa ≤ em.roundedMantissa ∧ em.roundedMantissa ≤ em.mantissa + 1 := by
  obtain ⟨m, r, s⟩ := em
  have hEven : m % 2 ≤ 1 := by omega
  cases r <;> cases s <;>
    simp [ExtendedMantissa.roundedMantissa, ExtendedMantissa.accuracy, Accuracy.roundToNearestEven,
      hEven]

theorem mantissa_ofMantissaAndAccuracy (m : Nat) (a : Accuracy) :
    (ExtendedMantissa.ofMantissaAndAccuracy m a).mantissa = m := by
  cases a with
  | exact => rfl
  | inexact o => cases o <;> rfl

/-- Dropping the digits beyond the 53rd leaves at most 53. -/
theorem div_two_pow_lt {m k : Nat} (h : m.log2 ≤ 52 + k) : m / 2 ^ k < 2 ^ 53 := by
  rw [Nat.div_lt_iff_lt_mul (Nat.two_pow_pos k), ← Nat.pow_add]
  calc m < 2 ^ (m.log2 + 1) := Nat.lt_log2_self
    _ ≤ 2 ^ (53 + k) := Nat.pow_le_pow_right (by decide) (by omega)

/-- The exponent that a number is brought to before it is rounded. -/
def roundingExponent (m : Nat) (e : Int) : Int :=
  max e (max (totalExponent m e - 53) (-1074))

/-- The digits that are left of a number when it is brought to that exponent. -/
def leadingDigits (m : Nat) (e : Int) : Nat :=
  m / 2 ^ (roundingExponent m e - e).toNat

theorem leadingDigits_lt (m : Nat) (e : Int) : leadingDigits m e < 2 ^ 53 := by
  refine div_two_pow_lt ?_
  unfold roundingExponent totalExponent
  omega

/-- A number whose digits reach to the last place or beyond fills the significand. -/
theorem le_leadingDigits {m : Nat} {e : Int} (hLong : e ≤ max (totalExponent m e - 53) (-1074))
    (hAbove : -1074 < roundingExponent m e) : 2 ^ 52 ≤ leadingDigits m e := by
  unfold roundingExponent at hAbove
  have hLog : 52 + (roundingExponent m e - e).toNat = m.log2 := by
    unfold roundingExponent
    unfold totalExponent at *
    omega
  have hSome : m ≠ 0 := by
    rintro rfl
    rw [Nat.log2_zero] at hLog
    omega
  rw [leadingDigits, Nat.le_div_iff_mul_le (Nat.two_pow_pos _), ← Nat.pow_add, hLog]
  exact Nat.log2_self_le hSome

theorem shiftToTargetExponent_eq (m : Nat) (e : Int) (a : Accuracy) :
    (shiftToTargetExponent .binary64 m e a).1.mantissa = leadingDigits m e ∧
      (shiftToTargetExponent .binary64 m e a).2 = roundingExponent m e := by
  have hShift : (Format.binary64.targetExponent (totalExponent m e) - e).toNat =
      (roundingExponent m e - e).toNat := by
    rw [targetExponent_eq, roundingExponent]
    omega
  constructor
  · change (ExtendedMantissa.ofMantissaAndAccuracy m a >>>
      (Format.binary64.targetExponent (totalExponent m e) - e).toNat).mantissa = _
    rw [mantissa_shiftRight, mantissa_ofMantissaAndAccuracy, hShift, leadingDigits]
  · change e + ((Format.binary64.targetExponent (totalExponent m e) - e).toNat : Int) = _
    rw [hShift, roundingExponent]
    omega

theorem log2_le_of_lt {m k : Nat} (h : m < 2 ^ (k + 1)) : m.log2 ≤ k := by
  rcases Nat.eq_zero_or_pos m with rfl | hPos
  · simp
  · have := (Nat.log2_lt (Nat.ne_of_gt hPos)).mpr h
    omega

/-- A number with few digits is brought to no other exponent. -/
theorem roundingExponent_eq_self {m : Nat} {e : Int} (hm : m < 2 ^ 53) (he : -1074 ≤ e) :
    roundingExponent m e = e := by
  have hLog := log2_le_of_lt hm
  unfold roundingExponent totalExponent
  omega

/-- The digits that are left of a number when it is brought to that exponent and rounded. -/
def roundedDigits (m : Nat) (e : Int) (a : Accuracy) : Nat :=
  (shiftToTargetExponent .binary64 m e a).1.roundedMantissa

theorem roundedDigits_bounds (m : Nat) (e : Int) (a : Accuracy) :
    leadingDigits m e ≤ roundedDigits m e a ∧ roundedDigits m e a ≤ leadingDigits m e + 1 := by
  rw [← (shiftToTargetExponent_eq m e a).1]
  exact roundedMantissa_bounds _

/-- **What rounding gives**: the rounded digits, or half of them and the next exponent, if they were
rounded up to a digit too many. -/
theorem roundWithAccuracy_outcome (s : Sign) (m : Nat) (e : Int) (a : Accuracy) :
    ∃ m' e', (m' < 2 ^ 53 ∧ m' = roundedDigits m e a ∧ e' = roundingExponent m e ∨
        roundedDigits m e a = 2 ^ 53 ∧ m' = 2 ^ 52 ∧ e' = roundingExponent m e + 1) ∧
      roundWithAccuracy .binary64 s m e a =
        if h : m' = 0 then .zero s else .finite s m' e' (Nat.pos_of_ne_zero h) := by
  have hFew := leadingDigits_lt m e
  have hUpper := (roundedDigits_bounds m e a).2
  have hLeast : -1074 ≤ roundingExponent m e := by
    unfold roundingExponent
    omega
  have hExponent := (shiftToTargetExponent_eq m e a).2
  -- the rounded digits are brought to an exponent once more
  obtain ⟨hDigits', hExponent'⟩ :=
    shiftToTargetExponent_eq (roundedDigits m e a) (roundingExponent m e) .exact
  rw [roundWithAccuracy]
  rcases hFirst : shiftToTargetExponent .binary64 m e a with ⟨em, t⟩
  rw [hFirst] at hExponent
  obtain rfl : t = roundingExponent m e := hExponent
  have hRounded : em.roundedMantissa = roundedDigits m e a := by
    rw [roundedDigits, hFirst]
  dsimp only
  rw [hRounded]
  rcases hSecond : shiftToTargetExponent .binary64 (roundedDigits m e a) (roundingExponent m e)
    .exact with ⟨em', t'⟩
  rw [hSecond] at hDigits' hExponent'
  have hDigits' : em'.mantissa = leadingDigits _ _ := hDigits'
  have hExponent' : t' = roundingExponent _ _ := hExponent'
  refine ⟨em'.mantissa, t', ?_, rfl⟩
  by_cases hCarry : roundedDigits m e a < 2 ^ 53
  · -- nothing is left to be dropped
    have hStay := roundingExponent_eq_self hCarry hLeast
    rw [leadingDigits, hStay, Int.sub_self, Int.toNat_zero, Nat.pow_zero, Nat.div_one] at hDigits'
    rw [hStay] at hExponent'
    exact Or.inl ⟨by omega, hDigits', hExponent'⟩
  · have hFull : roundedDigits m e a = 2 ^ 53 := by omega
    have hNext : roundingExponent (2 ^ 53) (roundingExponent m e) = roundingExponent m e + 1 := by
      rw [roundingExponent, totalExponent, Nat.log2_two_pow]
      omega
    rw [hFull, leadingDigits, hNext] at hDigits'
    rw [hFull, hNext] at hExponent'
    have hHalf : em'.mantissa = 2 ^ 52 := by
      rw [hDigits', show (roundingExponent m e + 1 - roundingExponent m e).toNat = 1 by omega]
      rfl
    exact Or.inr ⟨hFull, hHalf, hExponent'⟩

/-- **What rounding does to the exponent**: it is the one that the number is brought to, or the next
one, if the digits are rounded up to a power of two. -/
theorem roundWithAccuracy_cases (s : Sign) (m : Nat) (e : Int) (a : Accuracy) :
    (roundWithAccuracy .binary64 s m e a = .zero s ∧ leadingDigits m e = 0) ∨
      ∃ m' e' hPos, roundWithAccuracy .binary64 s m e a = .finite s m' e' hPos ∧ m' < 2 ^ 53 ∧
        roundingExponent m e ≤ e' ∧ e' ≤ roundingExponent m e + 1 ∧
        (2 ^ 52 ≤ leadingDigits m e → 2 ^ 52 ≤ m') := by
  have hBounds := roundedDigits_bounds m e a
  obtain ⟨m', e', hOutcome, hRound⟩ := roundWithAccuracy_outcome s m e a
  rw [hRound]
  by_cases hZero : m' = 0
  · rw [dif_pos hZero]
    exact Or.inl ⟨rfl, by omega⟩
  · rw [dif_neg hZero]
    exact Or.inr ⟨m', e', _, rfl, by omega, by omega, by omega, by omega⟩

end Rounding

-- ----------------------------------------------------------------------------
-- Bit patterns
-- ----------------------------------------------------------------------------

section Bits

variable {b : BitVec 64} {bound : Int}

/-- The field of a bit pattern that holds the exponent. -/
def exponentField (b : BitVec 64) : BitVec 11 :=
  @unpackExponent .binary64 b

/-- A bit pattern whose exponent field is not full stands for zero or a number. -/
theorem tame_unpack (hField : exponentField b ≠ -1#11)
    (hBound : ((exponentField b).toNat : Int) - 1075 ≤ bound) (hLeast : -1074 ≤ bound) :
    Tame bound (UnpackedFloat.unpack .binary64 b) := by
  unfold exponentField at hField hBound
  unfold UnpackedFloat.unpack
  dsimp only
  rw [if_neg hField]
  by_cases hZero : @unpackExponent .binary64 b = 0#11
  · rw [if_pos hZero]
    by_cases hNone : @unpackMantissa .binary64 b = 0#52
    · rw [dif_pos hNone]
      trivial
    · rw [dif_neg hNone]
      have hShort : (@unpackMantissa .binary64 b).toNat < 2 ^ 52 := BitVec.isLt _
      refine ⟨by omega, ?_⟩
      rw [hZero]
      exact hLeast
  · rw [if_neg hZero]
    exact ⟨BitVec.isLt _, hBound⟩

theorem exponentField_of_tame (h : Tame bound (UnpackedFloat.unpack .binary64 b)) :
    exponentField b ≠ -1#11 := by
  intro hField
  unfold exponentField at hField
  unfold UnpackedFloat.unpack at h
  dsimp only at h
  rw [if_pos hField] at h
  split at h <;> exact h

theorem toNat_exponentField (b : BitVec 64) :
    (exponentField b).toNat = b.toNat / 2 ^ 52 % 2 ^ 11 := by
  unfold exponentField unpackExponent
  simp [Nat.shiftRight_eq_div_pow]

theorem exists_finite {x : Float} (h : isFinite x = true) :
    ∃ negative m q, Binary.ofFloat x = .finite negative m q := by
  unfold isFinite at h
  split at h
  · rename_i negative m q hBinary
    exact ⟨negative, m, q, hBinary⟩
  · cases h

theorem isFinite_eq (x : Float) :
    isFinite x = decide (x.toBits.toNat / Binary.hiddenBit % 2048 ≠ 2047) := by
  unfold isFinite Binary.ofFloat Binary.ofBits
  by_cases hFull : x.toBits.toNat / Binary.hiddenBit % 2048 = 2047
  · simp only [hFull, if_true, ne_eq, not_true_eq_false, decide_false]
    split_ifs <;> rfl
  · simp only [hFull, if_false, ne_eq, not_false_eq_true, decide_true]
    split_ifs <;> rfl

/-- A number is finite exactly if its exponent field is not full. -/
theorem isFinite_iff (x : Float) : isFinite x = true ↔ Tame 971 x.toModel.unpack := by
  have hField : (exponentField x.toBits.toBitVec).toNat =
      x.toBits.toNat / Binary.hiddenBit % 2048 := toNat_exponentField _
  have hLt : (exponentField x.toBits.toBitVec).toNat < 2048 := BitVec.isLt _
  have hFull : exponentField x.toBits.toBitVec = -1#11 ↔
      (exponentField x.toBits.toBitVec).toNat = 2047 := by
    rw [← BitVec.toNat_inj]
    rfl
  rw [isFinite_eq, decide_eq_true_eq, ← hField, ne_eq, ← hFull]
  constructor
  · intro hNot
    have hLess := mt hFull.mpr hNot
    have hBound : ((exponentField x.toBits.toBitVec).toNat : Int) - 1075 ≤ 971 := by omega
    exact tame_unpack hNot hBound (by decide)
  · exact exponentField_of_tame

theorem exponentField_packComponents (s : Sign) (field : BitVec 11) (digits : BitVec 52) :
    exponentField (packComponents .binary64 s field digits) = field :=
  unpackExponent_packComponents

theorem pack_finite_eq (s : Sign) {m : Nat} {e : Int} (hPos : 0 < m) :
    UnpackedFloat.pack .binary64 (.finite s m e hPos) =
      if 2048 ≤ (e + 1075).toNat + 1 then packedInfinity .binary64 s
      else if m.log2 + 1 = 53 then
        packComponents .binary64 s (BitVec.ofNat 11 (e + 1075).toNat) (BitVec.ofNat 52 m)
      else packComponents .binary64 s 0#11 (BitVec.ofNat 52 m) := by
  have hBiased : (e + 1023 + 52).toNat = (e + 1075).toNat := by omega
  rw [← hBiased]
  rfl

/-- How a number is packed: beyond the largest exponent it overflows, and otherwise its exponent
field is at most the exponent, from the least one on. A full significand is kept. -/
theorem pack_finite_cases (s : Sign) {m : Nat} {e : Int} (hPos : 0 < m) :
    (971 < e ∧ UnpackedFloat.pack .binary64 (.finite s m e hPos) = packedInfinity .binary64 s) ∨
      ∃ (field : BitVec 11) (digits : BitVec 52),
        UnpackedFloat.pack .binary64 (.finite s m e hPos) =
          packComponents .binary64 s field digits ∧
        field.toNat < 2047 ∧ (field.toNat : Int) ≤ max (e + 1075) 0 ∧
        (m.log2 = 52 → field.toNat = (e + 1075).toNat) := by
  rw [pack_finite_eq]
  by_cases hLarge : 2048 ≤ (e + 1075).toNat + 1
  · rw [if_pos hLarge]
    exact Or.inl ⟨by omega, rfl⟩
  rw [if_neg hLarge]
  by_cases hNormal : m.log2 + 1 = 53
  · rw [if_pos hNormal]
    have hField : (BitVec.ofNat 11 (e + 1075).toNat).toNat = (e + 1075).toNat := by
      rw [BitVec.toNat_ofNat, Nat.mod_eq_of_lt (by omega)]
    exact Or.inr ⟨_, _, rfl, by omega, by omega, fun _ => hField⟩
  · rw [if_neg hNormal]
    exact Or.inr ⟨0#11, _, rfl, by decide, by simp, by omega⟩

theorem ne_full {field : BitVec 11} (h : field.toNat < 2047) : field ≠ -1#11 := by
  rintro rfl
  exact absurd h (by decide)

theorem tame_packComponents (s : Sign) {field : BitVec 11} (digits : BitVec 52)
    (hField : field.toNat < 2047) (hBound : (field.toNat : Int) - 1075 ≤ bound)
    (hLeast : -1074 ≤ bound) :
    Tame bound (UnpackedFloat.unpack .binary64 (packComponents .binary64 s field digits)) := by
  refine tame_unpack ?_ ?_ hLeast
  · rw [exponentField_packComponents]
    exact ne_full hField
  · rw [exponentField_packComponents]
    exact hBound

/-- **Packing keeps the bound on the exponent.** -/
theorem tame_pack (s : Sign) {m : Nat} {e : Int} (hPos : 0 < m) (he : e ≤ bound)
    (hLeast : -1074 ≤ bound) (hMost : bound ≤ 971) :
    Tame bound (Float.Model.pack (.finite s m e hPos)).unpack := by
  change Tame bound (UnpackedFloat.unpack .binary64 (UnpackedFloat.pack .binary64 _))
  rcases pack_finite_cases s (e := e) hPos with ⟨hLarge, -⟩ | ⟨field, digits, hPack, hField, hLe, -⟩
  · omega
  · rw [hPack]
    exact tame_packComponents s digits hField (by omega) hLeast

/-- A number that does not overflow is packed into a finite one. -/
theorem tame_of_not_isInf (s : Sign) {m : Nat} {e : Int} (hPos : 0 < m)
    (hInf : (Float.Model.pack (.finite s m e hPos)).isInf = false) :
    Tame 971 (Float.Model.pack (.finite s m e hPos)).unpack := by
  rcases pack_finite_cases s (e := e) hPos with ⟨-, hPack⟩ | ⟨field, digits, hPack, hField, -, -⟩
  · change (UnpackedFloat.unpack .binary64 (UnpackedFloat.pack .binary64 _)).isInf = false at hInf
    rw [hPack] at hInf
    cases s <;> exact absurd hInf (by decide)
  · change Tame 971 (UnpackedFloat.unpack .binary64 (UnpackedFloat.pack .binary64 _))
    rw [hPack]
    exact tame_packComponents s digits hField (by omega) (by decide)

theorem tame_pack_zero (s : Sign) (hLeast : -1074 ≤ bound) :
    Tame bound (Float.Model.pack (.zero s)).unpack :=
  tame_packComponents s 0#52 (by decide) (by change (0 : Int) - 1075 ≤ bound; omega) hLeast

/-- A number that is rounded and packed stays below the exponent that it is brought to. -/
theorem tame_pack_round (s : Sign) {m : Nat} {e : Int} (a : Accuracy)
    (h : roundingExponent m e + 1 ≤ bound) (hMost : bound ≤ 971) :
    Tame bound (Float.Model.pack (roundWithAccuracy .binary64 s m e a)).unpack := by
  have hLeast : -1074 ≤ bound := by
    unfold roundingExponent at h
    omega
  rcases roundWithAccuracy_cases s m e a with ⟨hRound, -⟩ | ⟨m', e', hPos, hRound, -, -, hUpper, -⟩
  · rw [hRound]
    exact tame_pack_zero s hLeast
  · rw [hRound]
    exact tame_pack s hPos (by omega) hLeast hMost

end Bits

-- ----------------------------------------------------------------------------
-- Arithmetic
-- ----------------------------------------------------------------------------

/-- The number is at least one. -/
def ReachesOne : UnpackedFloat → Prop
  | .finite _ m e _ => 1 ≤ totalExponent m e
  | .zero _ | .infinity _ | .notANumber => False

instance : DecidablePred ReachesOne
  | .finite _ m e _ => inferInstanceAs (Decidable (1 ≤ totalExponent m e))
  | .zero _ | .infinity _ | .notANumber => isFalse id

section Arithmetic

variable {u v : UnpackedFloat} {x y : Float} {bound bound' : Int}

theorem Tame.mono (h : Tame bound u) (hLe : bound ≤ bound') : Tame bound' u := by
  cases u with
  | zero s => trivial
  | finite s m e hPos => exact ⟨h.1, h.2.trans hLe⟩
  | infinity s => exact h
  | notANumber => exact h

theorem roundingExponent_mul {m m' : Nat} {e e' : Int} (hm : m < 2 ^ 53) (hm' : m' < 2 ^ 53)
    (he : e ≤ bound) (he' : e' ≤ bound') :
    roundingExponent (m * m') (e + e') ≤ max (bound + bound' + 53) (-1074) := by
  have hProduct : m * m' < 2 ^ (105 + 1) :=
    calc m * m' < 2 ^ 53 * 2 ^ 53 := Nat.mul_lt_mul'' hm hm'
      _ = 2 ^ (105 + 1) := by norm_num
  have hLog := log2_le_of_lt hProduct
  unfold roundingExponent totalExponent
  omega

/-- A product is zero, or rounded from the product of the digits. -/
theorem mul_cases (hu : Tame bound u) (hv : Tame bound' v) :
    (∃ s, UnpackedFloat.mul .binary64 u v = .zero s) ∨
      ∃ s m e, UnpackedFloat.mul .binary64 u v = roundWithAccuracy .binary64 s m e .exact ∧
        roundingExponent m e ≤ max (bound + bound' + 53) (-1074) := by
  cases u with
  | infinity s => exact hu.elim
  | notANumber => exact hu.elim
  | zero s =>
    cases v with
    | infinity s' => exact hv.elim
    | notANumber => exact hv.elim
    | zero s' => exact Or.inl ⟨_, rfl⟩
    | finite s' m' e' hPos' => exact Or.inl ⟨_, rfl⟩
  | finite s m e hPos =>
    cases v with
    | infinity s' => exact hv.elim
    | notANumber => exact hv.elim
    | zero s' => exact Or.inl ⟨_, rfl⟩
    | finite s' m' e' hPos' =>
      exact Or.inr ⟨_, _, _, rfl, roundingExponent_mul hu.1 hv.1 hu.2 hv.2⟩

/-- **The exponent of a product** is at most the sum of the exponents, and as many as the digits of
one of the numbers. -/
theorem tame_mul (hx : Tame bound x.toModel.unpack) (hy : Tame bound' y.toModel.unpack)
    (hMost : bound + bound' + 54 ≤ 971) :
    Tame (max (bound + bound' + 54) (-1073)) (x * y).toModel.unpack := by
  change Tame _ (Float.Model.pack (UnpackedFloat.mul .binary64 _ _)).unpack
  rcases mul_cases hx hy with ⟨s, hZero⟩ | ⟨s, m, e, hRound, hLe⟩
  · rw [hZero]
    exact tame_pack_zero s (by omega)
  · rw [hRound]
    exact tame_pack_round s _ (by omega) (by omega)

/-- A product that does not overflow is finite. -/
theorem tame_mul_of_not_isInf (hx : Tame bound x.toModel.unpack) (hy : Tame bound' y.toModel.unpack)
    (hInf : (x * y).isInf = false) : Tame 971 (x * y).toModel.unpack := by
  change (Float.Model.pack (UnpackedFloat.mul .binary64 _ _)).isInf = false at hInf
  change Tame _ (Float.Model.pack (UnpackedFloat.mul .binary64 _ _)).unpack
  rcases mul_cases hx hy with ⟨s, hZero⟩ | ⟨s, m, e, hRound, -⟩
  · rw [hZero]
    exact tame_pack_zero s (by decide)
  · rw [hRound] at hInf ⊢
    rcases roundWithAccuracy_cases s m e .exact with ⟨hZero, -⟩ | ⟨m', e', hPos, hFinite, -⟩
    · rw [hZero]
      exact tame_pack_zero s (by decide)
    · rw [hFinite] at hInf ⊢
      exact tame_of_not_isInf s hPos hInf

/-- How a quotient is computed: `k` digits are put behind the number that is divided. -/
theorem divCore_eq (m : Nat) (e : Int) (m' : Nat) (e' : Int) : ∃ (k : Nat) (t : Int),
    t = min (e - e') (max (totalExponent m e - totalExponent m' e' - 53) (-1074)) ∧
    t + k = e - e' ∧
    divCore .binary64 m e m' e' = (m * 2 ^ k / m', t, accuracyOfFraction (m * 2 ^ k % m') m') := by
  refine ⟨(e - e' - min (e - e') (max (totalExponent m e - totalExponent m' e' - 53)
    (-1074))).toNat, _, rfl, by omega, ?_⟩
  rw [← Nat.shiftLeft_eq]
  rfl

theorem roundingExponent_divCore {m m' : Nat} {e e' : Int} (hm : m < 2 ^ 53) (he : e ≤ bound)
    (hPos : 0 < m') (hOne : 1 ≤ totalExponent m' e') :
    roundingExponent (divCore .binary64 m e m' e').1 (divCore .binary64 m e m' e').2.1 ≤
      max bound (-1074) := by
  obtain ⟨k, t, hTarget, hShift, hDiv⟩ := divCore_eq m e m' e'
  rw [hDiv]
  dsimp only
  have hLog := log2_le_of_lt hm
  -- the quotient has as many digits as its parts differ by, and one more
  have hQuotient : m * 2 ^ k / m' < 2 ^ (m.log2 + k - m'.log2 + 1) := by
    rw [Nat.div_lt_iff_lt_mul hPos]
    calc m * 2 ^ k < 2 ^ (m.log2 + 1) * 2 ^ k :=
          Nat.mul_lt_mul_of_pos_right Nat.lt_log2_self (Nat.two_pow_pos k)
      _ = 2 ^ (m.log2 + 1 + k) := (Nat.pow_add _ _ _).symm
      _ ≤ 2 ^ (m.log2 + k - m'.log2 + 1 + m'.log2) :=
          Nat.pow_le_pow_right (by decide) (by omega)
      _ = 2 ^ (m.log2 + k - m'.log2 + 1) * 2 ^ m'.log2 := Nat.pow_add _ _ _
      _ ≤ 2 ^ (m.log2 + k - m'.log2 + 1) * m' :=
          Nat.mul_le_mul_left _ (Nat.log2_self_le (Nat.ne_of_gt hPos))
  have hLe := log2_le_of_lt hQuotient
  unfold roundingExponent
  unfold totalExponent at *
  omega

/-- **Dividing by what is at least one** raises the exponent by one at most. -/
theorem tame_div (hx : Tame bound x.toModel.unpack) (hy : ReachesOne y.toModel.unpack)
    (hLeast : -1074 ≤ bound) (hMost : bound + 1 ≤ 971) :
    Tame (bound + 1) (x / y).toModel.unpack := by
  change Tame _ (Float.Model.pack (UnpackedFloat.div .binary64 x.toModel.unpack _)).unpack
  generalize x.toModel.unpack = u at hx
  generalize y.toModel.unpack = v at hy
  cases v with
  | zero s | infinity s | notANumber => exact hy.elim
  | finite s' m' e' hPos' =>
    cases u with
    | infinity s | notANumber => exact hx.elim
    | zero s => exact tame_pack_zero _ (by omega)
    | finite s m e hPos =>
      have hRounding : roundingExponent (divCore .binary64 m e m' e').1
          (divCore .binary64 m e m' e').2.1 + 1 ≤ bound + 1 := by
        have hLe := roundingExponent_divCore hx.1 hx.2 hPos' hy
        omega
      exact tame_pack_round _ _ hRounding hMost

theorem tame_neg (hx : Tame bound x.toModel.unpack) (hLeast : -1074 ≤ bound)
    (hMost : bound ≤ 971) : Tame bound (-x).toModel.unpack := by
  change Tame _ (Float.Model.pack (UnpackedFloat.neg x.toModel.unpack)).unpack
  generalize x.toModel.unpack = u at hx
  cases u with
  | zero s => exact tame_pack_zero _ hLeast
  | finite s m e hPos => exact tame_pack _ hPos hx.2 hLeast hMost
  | infinity s | notANumber => exact hx.elim

theorem isFinite_neg (h : isFinite x = true) : isFinite (-x) = true :=
  (isFinite_iff _).mpr (tame_neg ((isFinite_iff x).mp h) (by decide) (by decide))

end Arithmetic

-- ----------------------------------------------------------------------------
-- Whole numbers and powers of ten
-- ----------------------------------------------------------------------------

/-- Digits that are put behind a number do not count for its exponent. -/
theorem log2_mul_two_pow {m : Nat} (hPos : 0 < m) (k : Nat) : (m * 2 ^ k).log2 = m.log2 + k := by
  rw [Nat.log2_eq_iff (by positivity)]
  constructor
  · rw [Nat.pow_add]
    exact Nat.mul_le_mul_right _ (Nat.log2_self_le (Nat.ne_of_gt hPos))
  · rw [Nat.add_right_comm, Nat.pow_add]
    exact Nat.mul_lt_mul_of_pos_right Nat.lt_log2_self (Nat.two_pow_pos k)

theorem roundingExponent_mul_two_pow {m d : Nat} (hPos : 0 < m) (h : m < 2 ^ (52 + d + 1))
    (k : Nat) : roundingExponent (m * 2 ^ k) (-k) ≤ d := by
  have hLog := log2_le_of_lt h
  rw [roundingExponent, totalExponent, log2_mul_two_pow hPos]
  omega

theorem toModel_toFloat {n : Nat} (h : n < 2 ^ 53) : n.toUInt64.toFloat.toModel =
    Float.Model.pack (UnpackedFloat.normalize .binary64 n 0 .positive) := by
  have hSame : n.toUInt64.toNat = n := by
    rw [UInt64.toNat_ofNat', Nat.mod_eq_of_lt (by omega)]
  change Float.Model.pack (UnpackedFloat.normalize .binary64 (n.toUInt64.toNat : Int) 0
    .positive) = _
  rw [hSame]

/-- A natural number is rounded with the digits to the last place put behind it. -/
theorem normalize_eq {n : Nat} (hPos : 0 < n) : ∃ k : Nat,
    -(k : Int) ≤ max ((n.log2 : Int) + 1 - 53) (-1074) ∧
    UnpackedFloat.normalize .binary64 n 0 .positive =
      roundWithAccuracy .binary64 .positive (n * 2 ^ k) (-k) .exact := by
  have hOrder : compare (n : Int) 0 = .gt := compare_gt_iff_gt.mpr (by omega)
  refine ⟨(-Format.binary64.targetExponent (totalExponent n 0)).toNat, ?_, ?_⟩
  · rw [targetExponent_eq, totalExponent]
    omega
  · rw [UnpackedFloat.normalize, hOrder]
    change UnpackedFloat.round .binary64 .positive n 0 = _
    rw [UnpackedFloat.round, decreaseExponent]
    simp only [Nat.shiftLeft_eq, Int.zero_sub]

theorem tame_toFloat {n : Nat} (h : n < 2 ^ 53) : Tame 1 n.toUInt64.toFloat.toModel.unpack := by
  rw [toModel_toFloat h]
  rcases Nat.eq_zero_or_pos n with rfl | hPos
  · exact tame_pack_zero _ (by decide)
  · obtain ⟨k, -, hNormalize⟩ := normalize_eq hPos
    have hLe := roundingExponent_mul_two_pow (d := 0) hPos h k
    rw [hNormalize]
    exact tame_pack_round _ _ (Int.add_le_add_right hLe 1) (by decide)

/-- A number with a decimal exponent is rounded from its digits times the power of ten. -/
theorem ofScientific_eq {m k : Nat} (hPos : 0 < m) (hLarge : ¬ (m < 2 ^ 53 ∧ k ≤ 22))
    (hk : k ≤ 2048) :
    (Float.ofScientific m false k).toModel = Float.Model.pack
      (roundWithAccuracy .binary64 .positive (m * 10 ^ k * 2 ^ 53) (-53) .exact) := by
  unfold Float.ofScientific
  rw [dif_neg hLarge]
  have hNotAbove : ¬ (k : Int) > 2 ^ Format.binary64.exponentBits := by
    change ¬ (2048 : Int) < k
    omega
  have hNotBelow : ¬ (k : Int) < -(2 ^ Format.binary64.exponentBits + m.log2) := by
    change ¬ (k : Int) < -(2048 + m.log2)
    omega
  change Float.Model.pack (UnpackedFloat.ofScientific .binary64 m (k : Int)) = _
  unfold UnpackedFloat.ofScientific
  rw [dif_neg (by omega), if_neg hNotAbove, if_neg hNotBelow, if_pos (by omega)]
  change Float.Model.pack
    (roundWithAccuracy .binary64 .positive (m <<< 53 * 10 ^ k) (-53 + 0) .exact) = _
  rw [Nat.shiftLeft_eq, Nat.mul_right_comm, Int.add_zero]

/-- Words are finite. -/
theorem tame_ofNat {n : Nat} (h : n ≤ Json.maxWord) : Tame 12 (Float.ofNat n).toModel.unpack := by
  unfold Json.maxWord at h
  change Tame 12 (Float.ofScientific n false 0).toModel.unpack
  by_cases hSmall : n < 2 ^ 53
  · have hOne : Tame (-52) (1 : Float).toModel.unpack := by decide +kernel
    unfold Float.ofScientific
    rw [dif_pos ⟨hSmall, by decide⟩]
    have := tame_mul (tame_toFloat hSmall) hOne (by decide)
    exact Tame.mono this (by decide)
  · have hPos : 0 < n := by omega
    have hLe := roundingExponent_mul_two_pow (d := 11) hPos (by omega) 53
    rw [ofScientific_eq hPos (fun hBoth => hSmall hBoth.1) (by decide), Nat.pow_zero, Nat.mul_one]
    exact tame_pack_round _ _ (Int.add_le_add_right hLe 1) (by decide)

theorem log2_append_one (digits : BitVec 52) : (1#1 ++ digits : BitVec 53).toNat.log2 = 52 := by
  have hAppend : (1#1 ++ digits : BitVec 53).toNat = 1 <<< 52 ||| digits.toNat :=
    BitVec.toNat_append ..
  have hShort := digits.isLt
  rw [← Nat.shiftLeft_add_eq_or_of_lt hShort, Nat.shiftLeft_eq] at hAppend
  rw [hAppend, Nat.log2_eq_iff (by omega)]
  omega

theorem reachesOne_unpack {b : BitVec 64} (hField : exponentField b ≠ -1#11)
    (hLeast : 1023 ≤ (exponentField b).toNat) :
    ReachesOne (UnpackedFloat.unpack .binary64 b) := by
  have hNotZero : exponentField b ≠ 0#11 := by
    intro hZero
    rw [hZero] at hLeast
    exact absurd hLeast (by decide)
  unfold exponentField at hField hLeast hNotZero
  unfold UnpackedFloat.unpack
  dsimp only
  rw [if_neg hField, if_neg hNotZero]
  change 1 ≤ ((1#1 ++ @unpackMantissa .binary64 b : BitVec 53).toNat.log2 : Int) + 1 +
    (((@unpackExponent .binary64 b).toNat : Int) - 1075)
  rw [log2_append_one]
  omega

theorem powerOfTen_large {k : Nat} (hLeast : 23 ≤ k) (hMost : k ≤ 307) :
    Tame 971 (Json.powerOfTen k).toModel.unpack ∧
      ReachesOne (Json.powerOfTen k).toModel.unpack := by
  obtain ⟨b, hBits⟩ : ∃ b, b = (10 ^ k).log2 := ⟨_, rfl⟩
  have hb : 52 ≤ b := by
    rw [hBits, Nat.le_log2 (by positivity)]
    calc 2 ^ 52 ≤ 10 ^ 23 := by norm_num
      _ ≤ 10 ^ k := Nat.pow_le_pow_right (by decide) hLeast
  have hb' : b ≤ 1020 := by
    rw [hBits]
    have hLast : 10 ^ 307 < 2 ^ (1020 + 1) := by decide +kernel
    exact log2_le_of_lt ((pow_le_pow_right₀ (by decide) hMost).trans_lt hLast)
  have hLog : (10 ^ k * 2 ^ 53).log2 = b + 53 := by
    rw [log2_mul_two_pow (by positivity), hBits]
  have hRounding : roundingExponent (10 ^ k * 2 ^ 53) (-53) = b - 52 := by
    rw [roundingExponent, totalExponent, hLog]
    omega
  have hDigits : 2 ^ 52 ≤ leadingDigits (10 ^ k * 2 ^ 53) (-53) := by
    refine le_leadingDigits ?_ (by omega)
    rw [totalExponent, hLog]
    omega
  rw [Json.powerOfTen, ofScientific_eq (by decide) (by omega) (by omega), Nat.one_mul]
  rcases roundWithAccuracy_cases .positive (10 ^ k * 2 ^ 53) (-53) .exact with
    ⟨-, hZero⟩ | ⟨m, e, hPos, hRound, hFew, hLower, hUpper, hFull⟩
  · omega
  have hm : m.log2 = 52 := (Nat.log2_eq_iff (Nat.ne_of_gt hPos)).mpr ⟨hFull hDigits, hFew⟩
  rw [hRound]
  change Tame 971 (UnpackedFloat.unpack .binary64 (UnpackedFloat.pack .binary64 _)) ∧
    ReachesOne (UnpackedFloat.unpack .binary64 (UnpackedFloat.pack .binary64 _))
  rcases pack_finite_cases .positive (e := e) hPos with
    ⟨hBeyond, -⟩ | ⟨field, digits, hPack, hField, -, hExact⟩
  · omega
  · have hBiased := hExact hm
    rw [hPack]
    refine ⟨tame_packComponents _ _ hField (by omega) (by decide), ?_⟩
    refine reachesOne_unpack ?_ ?_
    · rw [exponentField_packComponents]
      exact ne_full hField
    · rw [exponentField_packComponents]
      omega

/-- **The powers of ten that are multiplied or divided by** are finite and at least one. -/
theorem powerOfTen_spec {k : Nat} (h : k ≤ 308) :
    Tame 971 (Json.powerOfTen k).toModel.unpack ∧
      ReachesOne (Json.powerOfTen k).toModel.unpack := by
  -- the small ones are products of their own, and the last one is next to the largest number
  have hSmall : ∀ k ≤ 22, Tame 971 (Json.powerOfTen k).toModel.unpack ∧
      ReachesOne (Json.powerOfTen k).toModel.unpack := by decide +kernel
  have hLast : Tame 971 (Json.powerOfTen 308).toModel.unpack ∧
      ReachesOne (Json.powerOfTen 308).toModel.unpack := by decide +kernel
  by_cases hFew : k ≤ 22
  · exact hSmall k hFew
  by_cases hMost : k = 308
  · rw [hMost]
    exact hLast
  · exact powerOfTen_large (by omega) (by omega)

-- ----------------------------------------------------------------------------
-- Scaled numbers
-- ----------------------------------------------------------------------------

namespace Json

theorem isFinite_ofNat {n : Nat} (h : n ≤ maxWord) : isFinite (Float.ofNat n) = true :=
  (isFinite_iff _).mpr ((tame_ofNat h).mono (by decide))

theorem tame_div_powerOfTen {k : Nat} (hk : k ≤ 308) {x : Float} {bound : Int}
    (hx : Tame bound x.toModel.unpack) (hLeast : -1074 ≤ bound) (hMost : bound + 1 ≤ 971) :
    Tame (bound + 1) (x / powerOfTen k).toModel.unpack :=
  tame_div hx (powerOfTen_spec hk).2 hLeast hMost

/-- What a number is scaled to is finite. Each portion that it is divided by raises the bound on its
exponent by one. -/
theorem scale_finite {fuel : Nat} {x y : Float} {e bound : Int} (hx : Tame bound x.toModel.unpack)
    (hLeast : -1074 ≤ bound) (hMost : bound + fuel ≤ 971) (h : scale fuel x e = some y) :
    isFinite y = true := by
  have hSame : isFinite x = true := (isFinite_iff x).mpr (hx.mono (by omega))
  induction fuel generalizing x e bound with
  | zero =>
    obtain rfl : x = y := Option.some.inj h
    exact hSame
  | succ fuel ih =>
    simp only [scale] at h
    split_ifs at h with hPower hUp hInf hZero
    · obtain ⟨hTame, -⟩ := powerOfTen_spec hPower
      obtain rfl := Option.some.inj h
      exact (isFinite_iff _).mpr (tame_mul_of_not_isInf hx hTame (by simpa using hInf))
    · obtain rfl := Option.some.inj h
      have hQuotient := tame_div_powerOfTen hPower hx hLeast (by omega)
      exact (isFinite_iff _).mpr (hQuotient.mono (by omega))
    · obtain rfl : x = y := Option.some.inj h
      exact hSame
    · have hStep := tame_div_powerOfTen (Nat.le_refl 308) hx hLeast (by omega)
      exact ih hStep (by omega) (by omega) h ((isFinite_iff _).mpr (hStep.mono (by omega)))

/-- **A number that is put together from a word and a decimal exponent is finite**, if it is one at
all. -/
theorem fromParts_finite {negative : Bool} {significand : Nat} {e : Int} {j : Json}
    (hWord : significand ≤ maxWord) (h : fromParts negative significand e = .ok j) :
    ∃ x, j = .real x ∧ isFinite x = true := by
  unfold fromParts at h
  cases hScale : scale 6 (Float.ofNat significand) e with
  | none =>
    rw [hScale] at h
    cases h
  | some x =>
    rw [hScale] at h
    have hFinite := scale_finite (tame_ofNat hWord) (by decide) (by decide) hScale
    obtain rfl := Except.ok.inj h
    refine ⟨_, rfl, ?_⟩
    cases negative with
    | false => exact hFinite
    | true => exact isFinite_neg hFinite

end Json

end Zaban
