import Zaban.Number.Shortest

/-!
# Writing numbers

A number is written with the digits of its shortest decimal. What remains to
be decided is the **layout**: which exponents are written out in positional
notation, what a whole number ends with, how zero and the numbers that are
not finite are spelled, and which of two equally near decimals is taken.
A `Layout` is one such set of decisions; the modules that write numbers each
hold theirs.

Every exponent that is written has a sign, also a positive one.
-/

namespace Zaban

/-- The decisions that turn shortest digits into text. -/
structure Layout where
  /-- Which of two equally near decimals is taken. -/
  tie : Tie
  /-- Is a number whose first digit stands at `10 ^ e` written without an exponent? -/
  positional : (e : Int) → Bool
  /-- What follows the last digit of a whole number in positional notation. -/
  wholeEnd : String
  /-- Does a negative zero keep its sign? -/
  signedZero : Bool
  /-- The text of a number that is not one. -/
  nan : String
  /-- The text of positive infinity. -/
  infinity : String

namespace Layout

/-- Positional notation of `d`: the point stands behind the digit of `10 ^ 0`, and zeros fill the
places that have no digit. -/
def positionalText (l : Layout) (d : Decimal) : String :=
  let ds := d.digits
  let e := d.scientific
  if e < 0 then
    "0." ++ String.ofList (List.replicate (-e - 1).toNat '0' ++ ds)
  else if d.exponent < 0 then
    let whole := (e + 1).toNat
    String.ofList (ds.take whole) ++ "." ++ String.ofList (ds.drop whole)
  else
    String.ofList (ds ++ List.replicate d.exponent.toNat '0') ++ l.wholeEnd

/-- Scientific notation of `d`: one digit, a point and the other digits if there are any, and a
signed exponent. -/
def scientificText (d : Decimal) : String :=
  let mantissa := match d.digits with
    | x :: y :: ys => String.ofList (x :: '.' :: y :: ys)
    | ds => String.ofList ds
  let e := d.scientific
  mantissa ++ (if e < 0 then "e-" else "e+") ++ toString e.natAbs

/-- The text of a positive decimal. -/
def decimalText (l : Layout) (d : Decimal) : String :=
  if l.positional d.scientific then l.positionalText d else scientificText d

/-- The text of a number. -/
def write (l : Layout) (x : Float) : String :=
  match Binary.ofFloat x with
  | .nan => l.nan
  | .infinite negative => (if negative then "-" else "") ++ l.infinity
  | .finite negative m q =>
    if m = 0 then (if negative && l.signedZero then "-0" else "0") ++ l.wholeEnd
    else (if negative then "-" else "") ++ l.decimalText (Binary.shortest l.tie m q)

end Layout

end Zaban
