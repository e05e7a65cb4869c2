import Zaban.Number.Layout
import Zaban.Text.Cursor
import Zaban.Text.Quoted

/-!
# Tokens

A **token** is one word of a source text: a number, a string, a punctuation
character, a run of operator characters, one of seven keywords, or a name.
`Token.text` describes it together with its position, for messages.

A text may also fail to be a word. `LexFault` lists the causes, `LexError`
adds the position, and `LexFault.message` is the one place with their wording.
-/

namespace Zaban

-- ----------------------------------------------------------------------------
-- Words
-- ----------------------------------------------------------------------------

/-- The reserved words. -/
inductive Keyword where
  /-- Opens a conditional. -/
  | yeli
  /-- Opens the branch taken when the condition holds. -/
  | teli
  /-- Opens the branch taken when the condition is false. -/
  | nate
  /-- Opens a function. -/
  | banav
  /-- Opens a function, in one letter. -/
  | lambda
  /-- The true literal. -/
  | poz
  /-- The false literal. -/
  | apuz
deriving DecidableEq

namespace Keyword

/-- The spelling of a keyword. -/
def text : Keyword → String
  | yeli => "yeli"
  | teli => "teli"
  | nate => "nate"
  | banav => "banav"
  | lambda => "λ"
  | poz => "poz"
  | apuz => "apuz"

/-- All keywords. -/
def all : List Keyword := [yeli, teli, nate, banav, lambda, poz, apuz]

/-- The keyword spelled `word`, if there is one. -/
def ofText? (word : String) : Option Keyword :=
  all.find? (·.text == word)

/-- Every keyword is the one its spelling stands for. -/
theorem ofText?_text (k : Keyword) : ofText? k.text = some k := by
  cases k <;> decide

end Keyword

/-- What a token is. The literals for true and false are keywords. -/
inductive TokenKind where
  | number (value : Float)
  | string (value : String)
  | punctuation (mark : Char)
  | operator (symbol : String)
  | keyword (word : Keyword)
  | name (word : String)

/-- A word of a source text and the position of its first character. -/
structure Token where
  kind : TokenKind
  position : Position

/-- Numbers in tokens and in expressions are always written positionally, and a negative zero keeps
its sign. -/
def Layout.plain : Layout where
  tie := .up
  positional _ := true
  wholeEnd := ""
  signedZero := true
  nan := "NaN"
  infinity := "inf"

/-- Describes what a token is. -/
def TokenKind.text : TokenKind → String
  | number value => "number " ++ Layout.plain.write value
  | string value => "string " ++ Text.quoted value
  | punctuation mark => "punctuation \"" ++ mark.toString ++ "\""
  | operator symbol => "operator \"" ++ symbol ++ "\""
  | keyword word => "keyword \"" ++ word.text ++ "\""
  | name word => "variable \"" ++ word ++ "\""

/-- Describes a token and where it stands. -/
def Token.text (t : Token) : String :=
  t.kind.text ++ " (" ++ t.position.text ++ ")"

-- ----------------------------------------------------------------------------
-- Failures
-- ----------------------------------------------------------------------------

/-- Why a text has no further token. -/
inductive LexFault where
  /-- No token starts with the character. -/
  | unexpectedCharacter (c : Char)
  /-- The text ends before the closing quote of a string. -/
  | unterminatedString
  /-- The digits do not spell a number. -/
  | invalidNumber (numeral : String)
  /-- A character was asked for where the text ends. -/
  | unexpectedEnd
deriving DecidableEq

/-- The wording of a fault. -/
def LexFault.message : LexFault → String
  | unexpectedCharacter c => "Can't handle character: " ++ Text.quotedChar c
  | unterminatedString => "Unterminated string literal"
  | invalidNumber numeral => "Invalid number literal: " ++ numeral
  | unexpectedEnd => "Unexpected end of input"

/-- A fault and where it was found. -/
structure LexError where
  fault : LexFault
  position : Position
deriving DecidableEq

/-- The wording of a fault, followed by its position. -/
def LexError.message (e : LexError) : String :=
  e.fault.message ++ " (" ++ e.position.text ++ ")"

/-- The fault `fault`, found where the cursor stands. -/
def Cursor.fail (c : Cursor) (fault : LexFault) : LexError :=
  ⟨fault, c.position⟩

/-- Takes the next character; asking for one behind the last is an error. -/
def Cursor.next (c : Cursor) : Except LexError Char × Cursor :=
  match c.next? with
  | some (x, c') => (.ok x, c')
  | none => (.error (c.fail .unexpectedEnd), c)

end Zaban
