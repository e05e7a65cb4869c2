import Zaban.Json.Numeral

/-!
# Reading JSON

A reader works at the front of a text and gives a value with the text behind
it. Its failures have two causes: the text ends where more must follow
(`Defect.truncated`), or something stands there that cannot
(`Defect.malformed`). Which one is met first, reading from the left, decides.

Arrays and objects may be nested `nestingLimit` deep; an opening bracket beyond
that is refused where it stands. The readers carry fuel, of which every
character of the text needs at most two portions.
-/

namespace Zaban.Json

/-- How deep arrays and objects may be nested. -/
def nestingLimit : Nat := 127

/-- White space between the parts of a value. -/
def isGap (c : Char) : Bool :=
  [' ', '\n', '\t', '\r'].contains c

/-- The text behind leading white space. -/
def skipGap (cs : List Char) : List Char :=
  cs.dropWhile isGap

-- ----------------------------------------------------------------------------
-- Words and strings
-- ----------------------------------------------------------------------------

/-- Takes the characters `word`, which must stand at the front. -/
def readWord : (word : List Char) → List Char → Reading (List Char)
  | [], cs => .ok cs
  | _ :: _, [] => .error .truncated
  | w :: ws, c :: cs => if c = w then readWord ws cs else .error .malformed

/-- The value of a hexadecimal digit. -/
def hexValue? (c : Char) : Option Nat :=
  if c.isDigit then some (c.toNat - '0'.toNat)
  else if 'a' ≤ c ∧ c ≤ 'f' then some (c.toNat - 'a'.toNat + 10)
  else if 'A' ≤ c ∧ c ≤ 'F' then some (c.toNat - 'A'.toNat + 10)
  else none

/-- Is the text shorter than four bytes? -/
def underFourBytes (cs : List Char) : Bool :=
  (cs.take 4).foldl (fun n c => n + c.utf8Size) 0 < 4

/-- Reads four hexadecimal digits. A text that ends within four bytes is cut off, whatever those
bytes are. -/
def readUnit (cs : List Char) : Reading (Nat × List Char) :=
  if underFourBytes cs then .error .truncated
  else
    match cs with
    | a :: b :: c :: d :: rest =>
      match hexValue? a, hexValue? b, hexValue? c, hexValue? d with
      | some a, some b, some c, some d => .ok (((a * 16 + b) * 16 + c) * 16 + d, rest)
      | _, _, _, _ => .error .malformed
    | _ => .error .malformed

/-- Is `n` the first half of a surrogate pair? -/
def isHighSurrogate (n : Nat) : Bool :=
  0xd800 ≤ n && n ≤ 0xdbff

/-- Is `n` the second half of a surrogate pair? -/
def isLowSurrogate (n : Nat) : Bool :=
  0xdc00 ≤ n && n ≤ 0xdfff

/-- Takes the character `x`, which must stand at the front. -/
def readChar (x : Char) (cs : List Char) : Reading (List Char) :=
  readWord [x] cs

/-- Reads the character behind a backslash and a `u`: one unit, or a pair of surrogates, of which
the second has an escape of its own. -/
def readCodePoint (cs : List Char) : Reading (Char × List Char) := do
  let (high, cs) ← readUnit cs
  if isLowSurrogate high then .error .malformed
  else if isHighSurrogate high then
    let cs ← readChar '\\' cs
    let cs ← readChar 'u' cs
    let (low, cs) ← readUnit cs
    if isLowSurrogate low then
      return (Char.ofNat (0x10000 + (high - 0xd800) * 0x400 + (low - 0xdc00)), cs)
    else .error .malformed
  else return (Char.ofNat high, cs)

/-- The character that the letter behind a backslash stands for. -/
def escapeLetter? (c : Char) : Option Char :=
  if c = '"' then some '"'
  else if c = '\\' then some '\\'
  else if c = '/' then some '/'
  else if c = 'b' then some '\x08'
  else if c = 'f' then some '\x0c'
  else if c = 'n' then some '\n'
  else if c = 'r' then some '\r'
  else if c = 't' then some '\t'
  else none

/-- Reads the escape behind a backslash. -/
def readEscape (cs : List Char) : Reading (Char × List Char) :=
  match cs with
  | [] => .error .truncated
  | c :: cs =>
    if c = 'u' then readCodePoint cs
    else
      match escapeLetter? c with
      | some x => .ok (x, cs)
      | none => .error .malformed

/-- Reads a string behind its opening quote. Control characters below the space do not stand in a
string. -/
def readString : (fuel : Nat) → List Char → Reading (List Char × List Char)
  | 0, _ => .error .truncated
  | fuel + 1, cs =>
    match cs with
    | [] => .error .truncated
    | c :: cs =>
      if c = '"' then .ok ([], cs)
      else if c = '\\' then do
        let (x, cs) ← readEscape cs
        let (s, cs) ← readString fuel cs
        return (x :: s, cs)
      else if c.toNat < 0x20 then .error .malformed
      else do
        let (s, cs) ← readString fuel cs
        return (c :: s, cs)

/-- Reads a string behind its opening quote. -/
def readText (fuel : Nat) (cs : List Char) : Reading (String × List Char) := do
  let (s, cs) ← readString fuel cs
  return (String.ofList s, cs)

/-- Reads a value that starts with `c` and is neither an array nor an object. -/
def readScalar (fuel : Nat) (c : Char) (cs : List Char) : Reading (Json × List Char) :=
  if c = 'n' then do
    let cs ← readWord ['u', 'l', 'l'] cs
    return (.null, cs)
  else if c = 't' then do
    let cs ← readWord ['r', 'u', 'e'] cs
    return (.bool true, cs)
  else if c = 'f' then do
    let cs ← readWord ['a', 'l', 's', 'e'] cs
    return (.bool false, cs)
  else if c = '"' then do
    let (s, cs) ← readText fuel cs
    return (.string s, cs)
  else if c = '-' then readNumber true cs
  else if c.isDigit then readNumber false (c :: cs)
  else .error .malformed

-- ----------------------------------------------------------------------------
-- Arrays and objects
-- ----------------------------------------------------------------------------

/-- Reads up to the next item of an array or member of an object, past the comma that separates it
from the one before. Tells whether there is one; if not, the bracket `stop` is read. -/
def readSeparator (stop : Char) (first : Bool) (cs : List Char) : Reading (Bool × List Char) :=
  match skipGap cs with
  | [] => .error .truncated
  | c :: cs =>
    if c = stop then .ok (false, cs)
    else if first then .ok (true, c :: cs)
    else if c = ',' then
      match skipGap cs with
      | [] => .error .truncated
      | c :: cs => if c = stop then .error .malformed else .ok (true, c :: cs)
    else .error .malformed

/-- Reads the key of a member. -/
def readKey (fuel : Nat) (cs : List Char) : Reading (String × List Char) :=
  match cs with
  | [] => .error .truncated
  | c :: cs => if c = '"' then readText fuel cs else .error .malformed

/-- Reads the colon between the key and the value of a member. -/
def readColon (cs : List Char) : Reading (List Char) :=
  readChar ':' (skipGap cs)

mutual

/-- Reads a value with at most `depth` arrays and objects around each other. -/
def readValue : (fuel : Nat) → (depth : Nat) → List Char → Reading (Json × List Char)
  | 0, _, _ => .error .truncated
  | fuel + 1, depth, cs =>
    match skipGap cs with
    | [] => .error .truncated
    | c :: cs =>
      if c = '[' then
        match depth with
        | 0 => .error .malformed
        | depth + 1 => do
          let (items, cs) ← readItems fuel depth true cs
          return (.array items, cs)
      else if c = '{' then
        match depth with
        | 0 => .error .malformed
        | depth + 1 => do
          let (members, cs) ← readMembers fuel depth true cs
          return (.object members, cs)
      else readScalar fuel c cs

/-- Reads the items of an array, up to and with its closing bracket. -/
def readItems : (fuel : Nat) → (depth : Nat) → (first : Bool) → List Char →
    Reading (List Json × List Char)
  | 0, _, _, _ => .error .truncated
  | fuel + 1, depth, first, cs => do
    match ← readSeparator ']' first cs with
    | (false, cs) => return ([], cs)
    | (true, cs) =>
      let (x, cs) ← readValue fuel depth cs
      let (xs, cs) ← readItems fuel depth false cs
      return (x :: xs, cs)

/-- Reads the members of an object, up to and with its closing bracket. -/
def readMembers : (fuel : Nat) → (depth : Nat) → (first : Bool) → List Char →
    Reading (List (String × Json) × List Char)
  | 0, _, _, _ => .error .truncated
  | fuel + 1, depth, first, cs => do
    match ← readSeparator '}' first cs with
    | (false, cs) => return ([], cs)
    | (true, cs) =>
      let (key, cs) ← readKey fuel cs
      let cs ← readColon cs
      let (x, cs) ← readValue fuel depth cs
      let (xs, cs) ← readMembers fuel depth false cs
      return ((key, x) :: xs, cs)

end

/-- Enough fuel for a text of `n` characters. -/
def readFuel (n : Nat) : Nat :=
  2 * n + 4

end Zaban.Json
