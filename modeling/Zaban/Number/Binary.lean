/-!
# The exact value of a binary number

Every finite double-precision number is a natural number times a power of
two. `Binary.ofFloat` reads that form off the bits: a sign, a **significand**
`m` below `2 ^ 53` and an **exponent** `q`, of magnitude `m * 2 ^ q`. Zero has
significand zero, and the numbers too small for a full significand all have
the least exponent. Infinities and not-a-number are kept apart.

`Binary.toFloat` packs a finite form back into bits. Computations that must
not round (remainders, the choice of decimal digits) are done on these forms
in `Nat` and `Int`.
-/

namespace Zaban

/-- What the bits of a double-precision number say. -/
inductive Binary where
  /-- Not a number. -/
  | nan
  /-- Positive or negative infinity. -/
  | infinite (negative : Bool)
  /-- The number of magnitude `significand * 2 ^ exponent`. -/
  | finite (negative : Bool) (significand : Nat) (exponent : Int)
deriving DecidableEq

namespace Binary

/-- The exponent of the numbers next to zero, and the least there is. -/
def leastExponent : Int := -1074

/-- The least significand of full length, `2 ^ 52`. -/
def hiddenBit : Nat := 0x10000000000000

/-- The sign in a bit pattern, `2 ^ 63`. -/
def signBit : Nat := 0x8000000000000000

/-- Reads sign, significand and exponent off the bit pattern `bits`. -/
def ofBits (bits : Nat) : Binary :=
  let negative : Bool := bits / signBit % 2 = 1
  let field : Nat := bits / hiddenBit % 2048
  let fraction : Nat := bits % hiddenBit
  if field = 2047 then
    if fraction = 0 then .infinite negative else .nan
  else if field = 0 then .finite negative fraction leastExponent
  else .finite negative (hiddenBit + fraction) (leastExponent + field - 1)

/-- The exact value of `x`. -/
def ofFloat (x : Float) : Binary :=
  ofBits x.toBits.toNat

/-- The bit pattern of the magnitude `significand * 2 ^ exponent`, for a significand below `2 ^ 53`
and an exponent no less than the least. A short significand is first shifted to full length, as
far as the exponent allows. -/
def magnitudeBits (significand : Nat) (exponent : Int) : Nat :=
  let shift := min (52 - significand.log2) (exponent - leastExponent).toNat
  let full := significand * Nat.pow 2 shift
  if full < hiddenBit then full
  else full - hiddenBit + hiddenBit * (exponent - shift - leastExponent + 1).toNat

/-- The number with the magnitude `significand * 2 ^ exponent` and the given sign. -/
def pack (negative : Bool) (significand : Nat) (exponent : Int) : Float :=
  let magnitude := magnitudeBits significand exponent
  Float.ofBits (.ofNat (if negative then signBit + magnitude else magnitude))

end Binary

end Zaban
