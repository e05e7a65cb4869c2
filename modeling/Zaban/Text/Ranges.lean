/-!
# Ranges of characters

A class of characters beyond ASCII is given by a **table**: ranges of code
points, first and last included, in ascending order. A look-up walks the table
only as far as the ranges begin at or below the character, so that characters
near the start of the code space are cheap.
-/

namespace Zaban.Text

/-- Does `c` lie in one of the ranges, which are in ascending order? -/
def inRanges (c : Char) : List (Nat × Nat) → Bool
  | [] => false
  | (first, last) :: rest =>
    if c.toNat < first then false else c.toNat ≤ last || inRanges c rest

end Zaban.Text
