import Zaban.Text.Position

/-!
# Reading a text from left to right

A **cursor** is the part of a text that is still unread together with the
position of its first character. Reading never looks back, so the unread part
and the position are all that a reader of the text can depend on.

Two operations consume characters: `Cursor.next?` takes one, and
`Cursor.readWhile` takes the longest run of characters of a class. Both keep
the position in step with what they took, as `Cursor.readWhile_position` says
for the second.
-/

namespace Zaban

/-- The unread characters of a text and the position of the first of them. -/
structure Cursor where
  rest : List Char
  position : Position
deriving DecidableEq

namespace Cursor

/-- The cursor before the first character of `text`. -/
def ofText (text : String) : Cursor :=
  ⟨text.toList, .start⟩

/-- The character that would be read next. -/
def peek? (c : Cursor) : Option Char :=
  c.rest.head?

/-- Is everything read? -/
def atEnd (c : Cursor) : Bool :=
  c.rest.isEmpty

/-- Moves past the characters `taken`, which leaves `rest` unread. -/
def moved (c : Cursor) (taken rest : List Char) : Cursor :=
  ⟨rest, c.position.after taken⟩

/-- The next character and the cursor behind it, unless everything is read. -/
def next? (c : Cursor) : Option (Char × Cursor) :=
  match c.rest with
  | [] => none
  | x :: xs => some (x, c.moved [x] xs)

/-- Takes the longest run of characters on which `p` holds. -/
def readWhile (c : Cursor) (p : Char → Bool) : List Char × Cursor :=
  let taken := c.rest.takeWhile p
  (taken, c.moved taken (c.rest.dropWhile p))

/-- A run and what it leaves unread make up what was unread before. -/
theorem readWhile_append (c : Cursor) (p : Char → Bool) :
    (c.readWhile p).1 ++ (c.readWhile p).2.rest = c.rest :=
  List.takeWhile_append_dropWhile

/-- A run moves the position past exactly the characters it took. -/
theorem readWhile_position (c : Cursor) (p : Char → Bool) :
    (c.readWhile p).2.position = c.position.after (c.readWhile p).1 := rfl

end Cursor

end Zaban
