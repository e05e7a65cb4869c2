import Zaban.Json.Basic
import Zaban.Number.Layout

/-!
# Writing JSON

Two forms of one value: the **compact** form has no white space at all, the
**pretty** form puts every item and member on a line of its own, four spaces
further in than the brackets around it. Empty arrays and objects are a pair
of brackets in both.

In strings the quote, the backslash and the control characters below the
space are escaped, and nothing else is. Numbers have a point or an exponent,
so they read back as numbers that are not whole words; a number that is not
finite has no written form and becomes `null`.
-/

namespace Zaban.Json

/-- Sixteen digits are written positionally, and five places behind the point; whole numbers end in
a point and a zero. -/
def layout : Layout where
  tie := .toEven
  positional e := -5 ≤ e && e ≤ 15
  wholeEnd := ".0"
  signedZero := true
  nan := "null"
  infinity := "null"

/-- The text of a number; `null` if it is not finite. -/
def realText (x : Float) : String :=
  match Binary.ofFloat x with
  | .finite .. => layout.write x
  | _ => "null"

/-- The written form of a character of a string. -/
def escapeChar (c : Char) : List Char :=
  if c = '"' then ['\\', '"']
  else if c = '\\' then ['\\', '\\']
  else if c = '\x08' then ['\\', 'b']
  else if c = '\x0c' then ['\\', 'f']
  else if c = '\n' then ['\\', 'n']
  else if c = '\r' then ['\\', 'r']
  else if c = '\t' then ['\\', 't']
  else if c.toNat < 0x20 then
    ['\\', 'u', '0', '0', (c.toNat / 16).digitChar, (c.toNat % 16).digitChar]
  else [c]

/-- The text of a string, in its quotes. -/
def stringText (s : String) : String :=
  String.ofList ('"' :: s.toList.flatMap escapeChar ++ ['"'])

/-- The line break before an item `level` brackets deep. -/
def newline (level : Nat) : String :=
  String.ofList ('\n' :: List.replicate (4 * level) ' ')

/-- Items in the brackets `opening` and `closing`, on one line. -/
def inline (opening closing : String) (items : List String) : String :=
  opening ++ String.intercalate "," items ++ closing

/-- Items in the brackets `opening` and `closing`, one line each, inside `level` other brackets. -/
def onLines (level : Nat) (opening closing : String) (items : List String) : String :=
  if items.isEmpty then opening ++ closing
  else
    opening ++ newline (level + 1) ++ String.intercalate ("," ++ newline (level + 1)) items
      ++ newline level ++ closing

mutual

/-- The compact form. -/
def compact : Json → String
  | null => "null"
  | bool true => "true"
  | bool false => "false"
  | integer n => toString n
  | real x => realText x
  | string s => stringText s
  | array items => inline "[" "]" (compactItems items)
  | object members => inline "\x7b" "\x7d" (compactMembers members)

/-- The compact form of each item. -/
def compactItems : List Json → List String
  | [] => []
  | x :: xs => compact x :: compactItems xs

/-- The compact form of each member. -/
def compactMembers : List (String × Json) → List String
  | [] => []
  | (key, x) :: rest => (stringText key ++ ":" ++ compact x) :: compactMembers rest

end

mutual

/-- The pretty form inside `level` brackets. -/
def prettyAt (level : Nat) : Json → String
  | null => "null"
  | bool true => "true"
  | bool false => "false"
  | integer n => toString n
  | real x => realText x
  | string s => stringText s
  | array items => onLines level "[" "]" (prettyItems (level + 1) items)
  | object members => onLines level "\x7b" "\x7d" (prettyMembers (level + 1) members)

/-- The pretty form of each item. -/
def prettyItems (level : Nat) : List Json → List String
  | [] => []
  | x :: xs => prettyAt level x :: prettyItems level xs

/-- The pretty form of each member. -/
def prettyMembers (level : Nat) : List (String × Json) → List String
  | [] => []
  | (key, x) :: rest =>
    (stringText key ++ ": " ++ prettyAt level x) :: prettyMembers level rest

end

/-- The pretty form. -/
def pretty (j : Json) : String :=
  prettyAt 0 j

end Zaban.Json
