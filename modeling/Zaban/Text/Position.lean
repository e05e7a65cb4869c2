/-!
# Positions in a text

A **position** names a place between two characters of a text: the line,
counted from one, and the number of characters since that line began. Only a
line feed starts a new line, and every other character, whatever its width on
a screen, is one column. A position is therefore a function of the characters
that stand before it, which `Position.after` computes.
-/

namespace Zaban

/-- A place in a text: `line` counts from one, `column` from zero. -/
structure Position where
  line : Nat
  column : Nat
deriving DecidableEq

namespace Position

/-- Where every text begins. -/
def start : Position := ⟨1, 0⟩

/-- The place just past the character `c` read at `p`. -/
def advance (p : Position) (c : Char) : Position :=
  if c = '\n' then ⟨p.line + 1, 0⟩ else ⟨p.line, p.column + 1⟩

/-- The place just past the characters `cs` read one after another from `p`. -/
def after (p : Position) (cs : List Char) : Position :=
  cs.foldl advance p

@[simp] theorem after_nil (p : Position) : p.after [] = p := rfl

@[simp] theorem after_cons (p : Position) (c : Char) (cs : List Char) :
    p.after (c :: cs) = (p.advance c).after cs := rfl

/-- Reading in two portions ends where reading at once does. -/
theorem after_append (p : Position) (cs ds : List Char) :
    p.after (cs ++ ds) = (p.after cs).after ds :=
  List.foldl_append

/-- The written form, `line:column`. -/
def text (p : Position) : String :=
  toString p.line ++ ":" ++ toString p.column

end Position

end Zaban
