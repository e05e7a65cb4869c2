import Zaban.Number.Binary

/-!
# The exact remainder of a division

The **remainder** of `x` by `y` is `x` less the largest multiple of `y`, taken
toward zero, that does not pass `x`. It is always representable, so it is
computed without rounding: both magnitudes are brought to the smaller of
their two exponents, where they are natural numbers, and the remainder of
those natural numbers is scaled back. The result has the sign of `x`.
-/

namespace Zaban.Binary

/-- The remainder of `x` by `y`, exact, with the sign of `x`. A remainder by zero or of an infinity
is not a number, and a finite number is its own remainder by an infinity. -/
def remainder (x y : Float) : Float :=
  match ofFloat x, ofFloat y with
  | .finite negative m q, .finite _ n r =>
    if n = 0 then Float.ofBits 0x7ff8000000000000
    else
      let low := min q r
      pack negative (m * Nat.pow 2 (q - low).toNat % (n * Nat.pow 2 (r - low).toNat)) low
  | .finite .., .infinite _ => x
  | _, _ => Float.ofBits 0x7ff8000000000000

end Zaban.Binary
