import Mathlib
import Zaban.Proofs.Number.Finite

/-!
# Numbers in their exact form

`Binary.ofFloat` reads sign, significand and exponent off the bits of a number.
No other number has the same form (`ofFloat_injective`). The significand has
full length unless the exponent is the least (`Canonical`), so magnitudes are
ordered by their exponents first and by their significands second (`Less`), and
this is how numbers compare (`abs_lt_iff`, `le_abs_iff`). A number that is packed
from a form has that form, unless it is too large (`ofFloat_of_pack`).
-/

namespace Zaban

open Float.Model Float.Model.UnpackedFloat

namespace Binary

-- ----------------------------------------------------------------------------
-- Forms and numbers
-- ----------------------------------------------------------------------------

/-- The sign of a number, `true` for a negative one. -/
def sign (negative : Bool) : Sign :=
  if negative then .negative else .positive

/-- The number of a form. -/
def unpacked : Binary → UnpackedFloat
  | nan => .notANumber
  | infinite negative => .infinity (sign negative)
  | finite negative m q =>
    if h : m = 0 then .zero (sign negative)
    else .finite (sign negative) m q (Nat.pos_of_ne_zero h)

theorem sign_ofBitVec (b : BitVec 64) :
    Sign.ofBitVec (@unpackSign .binary64 b) = sign (b.toNat / signBit % 2 = 1) := by
  have hNat : (@unpackSign .binary64 b).toNat = b.toNat / signBit % 2 := by
    unfold unpackSign signBit
    simp [Nat.shiftRight_eq_div_pow]
  rw [← hNat]
  have hBit : ∀ s : BitVec 1, s = 0#1 ∨ s = 1#1 := by decide
  rcases hBit (@unpackSign .binary64 b) with hSign | hSign
  · rw [hSign]
    rfl
  · rw [hSign]
    rfl

theorem toNat_unpackMantissa (b : BitVec 64) :
    (@unpackMantissa .binary64 b).toNat = b.toNat % hiddenBit := by
  unfold unpackMantissa hiddenBit
  simp

theorem toNat_append_one (digits : BitVec 52) :
    (1#1 ++ digits : BitVec 53).toNat = hiddenBit + digits.toNat := by
  have hAppend : (1#1 ++ digits : BitVec 53).toNat = 1 <<< 52 ||| digits.toNat :=
    BitVec.toNat_append ..
  rw [hAppend, ← Nat.shiftLeft_add_eq_or_of_lt digits.isLt]
  rfl

/-- **A bit pattern stands for the number of its form.** -/
theorem unpack_ofBits (b : BitVec 64) :
    UnpackedFloat.unpack .binary64 b = (ofBits b.toNat).unpacked := by
  have hField : (@unpackExponent .binary64 b).toNat = b.toNat / hiddenBit % 2048 :=
    toNat_exponentField b
  have hZero : @unpackMantissa .binary64 b = 0#52 ↔ b.toNat % hiddenBit = 0 := by
    rw [← toNat_unpackMantissa, ← BitVec.toNat_inj]
    rfl
  have hFull : @unpackExponent .binary64 b = -1#11 ↔ b.toNat / hiddenBit % 2048 = 2047 := by
    rw [← hField, ← BitVec.toNat_inj]
    rfl
  have hLeast : @unpackExponent .binary64 b = 0#11 ↔ b.toNat / hiddenBit % 2048 = 0 := by
    rw [← hField, ← BitVec.toNat_inj]
    rfl
  unfold UnpackedFloat.unpack ofBits
  dsimp only
  rw [sign_ofBitVec]
  by_cases hAbove : @unpackExponent .binary64 b = -1#11
  · rw [if_pos hAbove, if_pos (hFull.mp hAbove)]
    by_cases hNone : @unpackMantissa .binary64 b = 0#52
    · rw [if_pos hNone, if_pos (hZero.mp hNone), unpacked]
    · rw [if_neg hNone, if_neg (mt hZero.mpr hNone), unpacked]
  rw [if_neg hAbove, if_neg (mt hFull.mpr hAbove)]
  by_cases hBelow : @unpackExponent .binary64 b = 0#11
  · rw [if_pos hBelow, if_pos (hLeast.mp hBelow), unpacked]
    by_cases hNone : @unpackMantissa .binary64 b = 0#52
    · rw [dif_pos hNone, dif_pos (hZero.mp hNone)]
    · rw [dif_neg hNone, dif_neg (mt hZero.mpr hNone), UnpackedFloat.finite.injEq]
      refine ⟨rfl, toNat_unpackMantissa b, ?_⟩
      rw [hBelow]
      rfl
  · have hSome : ¬ hiddenBit + b.toNat % hiddenBit = 0 := by
      unfold hiddenBit
      omega
    rw [if_neg hBelow, if_neg (mt hLeast.mpr hBelow), unpacked, dif_neg hSome,
      UnpackedFloat.finite.injEq]
    refine ⟨rfl, ?_, ?_⟩
    · rw [← toNat_unpackMantissa]
      exact toNat_append_one _
    · rw [hField]
      change ((b.toNat / hiddenBit % 2048 : Nat) : Int) - (1023 + 52) = -1074 + _ - 1
      omega

theorem unpack_eq (x : Float) : x.toModel.unpack = (ofFloat x).unpacked :=
  unpack_ofBits x.toBits.toBitVec

/-- No two numbers have the same form. -/
theorem ofFloat_injective : Function.Injective ofFloat := by
  intro x y hSame
  have hUnpack : x.toModel.unpack = y.toModel.unpack := by
    rw [unpack_eq, unpack_eq, hSame]
  have hBits := (unpack_inj_of_valid x.toModel.valid y.toModel.valid).mp hUnpack
  exact Float.toBits_inj.mp (UInt64.toBitVec_inj.mp hBits)

-- ----------------------------------------------------------------------------
-- Order
-- ----------------------------------------------------------------------------

/-- The significand has full length, or the exponent is the least. -/
structure Canonical (m : Nat) (q : Int) : Prop where
  short : m < 2 ^ 53
  least : -1074 ≤ q
  full  : q = -1074 ∨ 2 ^ 52 ≤ m

theorem canonical_zero : Canonical 0 (-1074) :=
  ⟨by decide, le_rfl, Or.inl rfl⟩

/-- The significand and the exponent of a number. -/
structure InFormat (m : Nat) (q : Int) : Prop extends Canonical m q where
  most : q ≤ 971

/-- The form with the smaller exponent, or with the smaller significand if the exponents are the
same. -/
def Less (m : Nat) (q : Int) (m' : Nat) (q' : Int) : Prop :=
  q < q' ∨ q = q' ∧ m < m'

section Order

variable {x y : Float} {negative : Bool} {m m' : Nat} {q q' : Int}

theorem inFormat_of_ofFloat (h : ofFloat x = .finite negative m q) : InFormat m q := by
  unfold ofFloat ofBits at h
  dsimp only at h
  have hField : x.toBits.toNat / hiddenBit % 2048 < 2048 := Nat.mod_lt _ (by decide)
  have hDigits : x.toBits.toNat % hiddenBit < hiddenBit := Nat.mod_lt _ (by decide)
  generalize x.toBits.toNat / hiddenBit % 2048 = field at h hField
  generalize x.toBits.toNat % hiddenBit = digits at h hDigits
  have hHidden : hiddenBit = 2 ^ 52 := rfl
  have hLeast : leastExponent = -1074 := rfl
  by_cases hFull : field = 2047
  · rw [if_pos hFull] at h
    split at h <;> cases h
  rw [if_neg hFull] at h
  by_cases hZero : field = 0
  · rw [if_pos hZero] at h
    obtain ⟨-, rfl, rfl⟩ := Binary.finite.inj h
    exact ⟨⟨by omega, by omega, Or.inl rfl⟩, by omega⟩
  · rw [if_neg hZero] at h
    obtain ⟨-, rfl, rfl⟩ := Binary.finite.inj h
    exact ⟨⟨by omega, by omega, Or.inr (by omega)⟩, by omega⟩

theorem less_trichotomy (m : Nat) (q : Int) (m' : Nat) (q' : Int) :
    Less m q m' q' ∨ m = m' ∧ q = q' ∨ Less m' q' m q := by
  unfold Less
  omega

theorem unpack_of_ofFloat (h : ofFloat x = .finite negative m q) (hPos : 0 < m) :
    x.toModel.unpack = .finite (sign negative) m q hPos := by
  rw [unpack_eq, h, unpacked, dif_neg (Nat.ne_of_gt hPos)]

theorem unpack_withSign (s : Sign) {s' : Sign} {b : BitVec 64} {hPos : 0 < m}
    (h : UnpackedFloat.unpack .binary64 b = .finite s' m q hPos) :
    UnpackedFloat.unpack .binary64 (packComponents .binary64 s (@unpackExponent .binary64 b)
      (@unpackMantissa .binary64 b)) = .finite s m q hPos := by
  unfold UnpackedFloat.unpack at h ⊢
  simp only [unpackMantissa_packComponents, unpackExponent_packComponents,
    unpackSign_packComponents, Sign.ofBitVec_toBitVec] at h ⊢
  split_ifs at h ⊢
  all_goals
    obtain ⟨-, rfl, rfl⟩ := UnpackedFloat.finite.inj h
    rfl

/-- The magnitude of a number has its significand and its exponent. -/
theorem unpack_abs (h : ofFloat x = .finite negative m q) (hPos : 0 < m) :
    x.abs.toModel.unpack = .finite .positive m q hPos := by
  have hUnpack : UnpackedFloat.unpack .binary64 x.toBits.toBitVec = _ := unpack_of_ofFloat h hPos
  have hForm := inFormat_of_ofFloat h
  have hTame : Tame 971 (UnpackedFloat.unpack .binary64 x.toBits.toBitVec) := by
    rw [hUnpack]
    exact ⟨hForm.short, hForm.most⟩
  have hNotFull := exponentField_of_tame hTame
  -- the bits are those of the number, with another sign
  have hSame := unpack_withSign .positive hUnpack
  have hValid : Format.binary64.Valid (packComponents .binary64 .positive
      (@unpackExponent .binary64 x.toBits.toBitVec)
      (@unpackMantissa .binary64 x.toBits.toBitVec)) := by
    refine ⟨fun hFull => ?_⟩
    rw [unpackExponent_packComponents] at hFull
    exact absurd hFull hNotFull
  have hAbs : x.toModel.unpack.abs = .finite .positive m q hPos := by
    rw [unpack_of_ofFloat h hPos]
    rfl
  change UnpackedFloat.unpack .binary64 (UnpackedFloat.pack .binary64 x.toModel.unpack.abs) = _
  rw [hAbs, ← hSame, pack_unpack_of_valid hValid]

theorem abs_lt_iff (hx : ofFloat x = .finite negative m q) (hPos : 0 < m)
    (hy : ofFloat y = .finite false m' q') (hPos' : 0 < m') :
    x.abs < y ↔ Less m q m' q' := by
  have hModel : x.abs < y ↔ x.abs.toModel.unpack.lt y.toModel.unpack = true :=
    decide_eq_true_iff
  have hOrder : UnpackedFloat.lt (.finite .positive m q hPos)
      (.finite .positive m' q' hPos') = true ↔
      (compare q q').then (compare m m') = .lt :=
    beq_iff_eq.trans Option.some_inj
  rw [hModel, unpack_abs hx hPos, unpack_of_ofFloat hy hPos']
  refine hOrder.trans ?_
  rw [Ordering.then_eq_lt, compare_lt_iff_lt, compare_eq_iff_eq, compare_lt_iff_lt, Less]

theorem le_abs_iff (hx : ofFloat x = .finite negative m q) (hPos : 0 < m)
    (hy : ofFloat y = .finite false m' q') (hPos' : 0 < m') :
    y ≤ x.abs ↔ ¬ Less m q m' q' := by
  have hModel : y ≤ x.abs ↔ y.toModel.unpack.le x.abs.toModel.unpack = true :=
    decide_eq_true_iff
  have hOrder : UnpackedFloat.le (.finite .positive m' q' hPos')
      (.finite .positive m q hPos) = true ↔
      ¬ (compare q' q).then (compare m' m) = .gt := by
    change ((compare q' q).then (compare m' m)).isLE = true ↔ _
    cases (compare q' q).then (compare m' m) <;> decide
  rw [hModel, unpack_abs hx hPos, unpack_of_ofFloat hy hPos']
  refine hOrder.trans (not_congr ?_)
  rw [Ordering.then_eq_gt, compare_gt_iff_gt, compare_eq_iff_eq, compare_gt_iff_gt, Less]
  exact or_congr Iff.rfl (and_congr_left' eq_comm)

end Order

-- ----------------------------------------------------------------------------
-- Packing
-- ----------------------------------------------------------------------------

section Packing

variable {x : Float} {negative : Bool} {m : Nat} {q : Int}

theorem sign_injective : Function.Injective sign := by
  intro s s' h
  cases s <;> cases s'
  case false.false => rfl
  case false.true => cases h
  case true.false => cases h
  case true.true => rfl

/-- The form of a bit pattern, by its fields. -/
theorem ofBits_packComponents (negative : Bool) (field : BitVec 11) (digits : BitVec 52) :
    ofBits (packComponents .binary64 (sign negative) field digits).toNat =
      if field.toNat = 2047 then if digits.toNat = 0 then .infinite negative else .nan
      else if field.toNat = 0 then .finite negative digits.toNat leastExponent
      else .finite negative (hiddenBit + digits.toNat) (leastExponent + field.toNat - 1) := by
  have hSign := sign_ofBitVec (packComponents .binary64 (sign negative) field digits)
  have hField := toNat_exponentField (packComponents .binary64 (sign negative) field digits)
  have hDigits := toNat_unpackMantissa (packComponents .binary64 (sign negative) field digits)
  rw [unpackSign_packComponents, Sign.ofBitVec_toBitVec] at hSign
  rw [exponentField_packComponents] at hField
  rw [unpackMantissa_packComponents] at hDigits
  change _ = _ / hiddenBit % 2048 at hField
  unfold ofBits
  dsimp only
  rw [← sign_injective hSign, ← hField, ← hDigits]

/-- **Packing a form**: the number has it, or it is infinite if the exponent is too large. -/
theorem ofFloat_of_pack (h : Canonical m q)
    (hModel : x.toModel = Float.Model.pack (finite negative m q).unpacked) :
    ofFloat x = if q ≤ 971 then .finite negative m q else .infinite negative := by
  have hBits : ofFloat x =
      ofBits (UnpackedFloat.pack .binary64 (finite negative m q).unpacked).toNat := by
    change ofBits x.toModel.toBits.toBitVec.toNat = _
    rw [hModel]
    rfl
  obtain ⟨hShort, hLeast, hFull⟩ := h
  have hHidden : hiddenBit = 2 ^ 52 := rfl
  have hLeastExponent : leastExponent = -1074 := rfl
  rw [hBits, unpacked]
  by_cases hZero : m = 0
  · obtain rfl : q = -1074 := by omega
    subst m
    exact ofBits_packComponents negative 0#11 0#52
  rw [dif_neg hZero, pack_finite_eq]
  by_cases hMost : q ≤ 971
  · rw [if_pos hMost, if_neg (by omega)]
    by_cases hLong : 2 ^ 52 ≤ m
    · have hLog : m.log2 + 1 = 53 := by
        rw [(Nat.log2_eq_iff hZero).mpr ⟨hLong, hShort⟩]
      rw [if_pos hLog, ofBits_packComponents, BitVec.toNat_ofNat, BitVec.toNat_ofNat,
        if_neg (by omega), if_neg (by omega), Binary.finite.injEq]
      exact ⟨rfl, by omega, by omega⟩
    · have hLog : ¬ m.log2 + 1 = 53 := by
        have := (Nat.log2_lt hZero).mpr (by omega : m < 2 ^ 52)
        omega
      rw [if_neg hLog, ofBits_packComponents, BitVec.toNat_ofNat, BitVec.toNat_ofNat,
        if_neg (by decide), if_pos (by decide), Binary.finite.injEq]
      exact ⟨rfl, by omega, by omega⟩
  · rw [if_neg hMost, if_pos (by omega)]
    exact ofBits_packComponents negative (-1#11) 0#52

end Packing

end Binary

end Zaban
