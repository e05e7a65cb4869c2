import Zaban.Number.Binary

/-!
# The shortest decimal that reads back

A finite binary number is the nearest to every real in an interval around it:
half the distance to its neighbour on either side, the ends included exactly
when its significand is even, because a number half-way between two others is
read as the even one. Below a power of two the numbers lie twice as close, so
there the interval reaches only half as far down.

Any decimal in that interval reads back as the number. `shortest` picks one
with the **fewest digits**, and among those the **nearest** to the number. It
walks the decimal grids `10 ^ t` from coarse to fine and looks at the two grid
points around the number: if any point of a grid lies in the interval, one of
these two does. Where both do and are equally near, a `Tie` decides.
-/

namespace Zaban

/-- The number `coefficient * 10 ^ exponent`. -/
structure Decimal where
  coefficient : Nat
  exponent : Int
deriving DecidableEq

/-- Which of two equally near decimals is taken. -/
inductive Tie where
  /-- The larger. -/
  | up
  /-- The one with the even coefficient. -/
  | toEven
deriving DecidableEq

namespace Decimal

/-- Moves the zeros at the end of the coefficient into the exponent, at most `fuel` of them. -/
def trim : (fuel : Nat) → Decimal → Decimal
  | 0, d => d
  | fuel + 1, d =>
    if d.coefficient % 10 = 0 then trim fuel ⟨d.coefficient / 10, d.exponent + 1⟩ else d

/-- The digits of the coefficient, from the most to the least significant. -/
def digits (d : Decimal) : List Char :=
  Nat.toDigits 10 d.coefficient

/-- The exponent of the first digit: the number is `d.ddd * 10 ^ scientific`. -/
def scientific (d : Decimal) : Int :=
  d.exponent + d.digits.length - 1

end Decimal

namespace Binary

/-- The interval of reals that read as a number, in quarters of its last place: the lower end, the
number, the upper end, and whether the ends belong to it. -/
structure Interval where
  lower : Nat
  value : Nat
  upper : Nat
  closed : Bool

/-- The interval of reals that read as `m * 2 ^ q`, in units of `2 ^ (q - 2)`. -/
def interval (m : Nat) (q : Int) : Interval where
  lower := if m = hiddenBit ∧ leastExponent < q then 4 * m - 1 else 4 * m - 2
  value := 4 * m
  upper := 4 * m + 2
  closed := m % 2 = 0

/-- Does the decimal grid point `c`, one unit of which is `den / num` units of the interval, lie in
the interval? -/
def Interval.holds (i : Interval) (num den c : Nat) : Bool :=
  if i.closed then i.lower * num ≤ c * den && c * den ≤ i.upper * num
  else i.lower * num < c * den && c * den < i.upper * num

/-- The point of the grid `10 ^ t` that lies in the interval of `m * 2 ^ q`, the nearer one if the
grid points on both sides of the number do. -/
def onGrid? (tie : Tie) (m : Nat) (q : Int) (t : Int) : Option Decimal :=
  let i := interval m q
  let num := Nat.pow 2 (q - 2).toNat * Nat.pow 10 (-t).toNat
  let den := Nat.pow 2 (2 - q).toNat * Nat.pow 10 t.toNat
  let below := i.value * num / den
  let above := below + 1
  match i.holds num den below, i.holds num den above with
  | true, true =>
    let toBelow := i.value * num - below * den
    let toAbove := above * den - i.value * num
    let takeAbove := toAbove < toBelow ||
      (toAbove = toBelow && (tie = .up || above % 2 = 0))
    some ⟨if takeAbove then above else below, t⟩
  | true, false => some ⟨below, t⟩
  | false, true => some ⟨above, t⟩
  | false, false => none

/-- The first grid point found on the grids `10 ^ t`, `10 ^ (t - 1)`, … -/
def searchGrids (tie : Tie) (m : Nat) (q : Int) : (fuel : Nat) → (t : Int) → Option Decimal
  | 0, _ => none
  | fuel + 1, t => (onGrid? tie m q t).or (searchGrids tie m q fuel (t - 1))

/-- A power of ten above `m * 2 ^ q`, given by its exponent: `30103 / 100000` is a little more than
the logarithm of two to the base ten. -/
def coarsestGrid (m : Nat) (q : Int) : Int :=
  (m.log2 + 1 + q) * 30103 / 100000 + 1

/-- The shortest decimal that reads back as `m * 2 ^ q`, for a positive `m`. Seventeen digits are
enough for every number, and the coarsest grid is at most two digits above the first of them. -/
def shortest (tie : Tie) (m : Nat) (q : Int) : Decimal :=
  let found := searchGrids tie m q 20 (coarsestGrid m q)
  (found.getD ⟨m, q⟩).trim 20

end Binary

end Zaban
