import Zaban.Text.Ranges

/-!
# Blank characters

The characters that leave a line empty to the eye: the ASCII controls from
tab to carriage return, the space, and the spaces and line separators beyond
ASCII. `isBlank_of_isWhitespace` says that the ASCII white space of the
standard library is among them.
-/

namespace Zaban.Text

/-- The ranges of blank code points, in ascending order. -/
def blankRanges : List (Nat × Nat) :=
  [(0x9, 0xd), (0x20, 0x20), (0x85, 0x85), (0xa0, 0xa0), (0x1680, 0x1680), (0x2000, 0x200a),
   (0x2028, 0x2029), (0x202f, 0x202f), (0x205f, 0x205f), (0x3000, 0x3000)]

/-- Does `c` leave no mark on the line? -/
def isBlank (c : Char) : Bool :=
  inRanges c blankRanges

/-- White space in the sense of the standard library is blank. -/
theorem isBlank_of_isWhitespace {c : Char} (h : c.isWhitespace = true) : isBlank c = true := by
  simp only [Char.isWhitespace, Bool.or_eq_true, decide_eq_true_eq] at h
  rcases h with ((h | h) | h) | h <;> subst h <;> decide

end Zaban.Text
