import Zaban.Token.Lexer

/-!
# Why a text is not a program

A text fails to be a program at a token that cannot stand where it stands, at
its end, or at a word that is not a token. The first two kinds say what was
expected there instead.
-/

namespace Zaban

/-- What could have stood at the place of a syntax error. -/
inductive Expected where
  | punctuation (mark : Char)
  | keyword (word : Keyword)
  | variableName
  | expression
deriving DecidableEq

/-- Describes what was expected. -/
def Expected.text : Expected → String
  | punctuation mark => (TokenKind.punctuation mark).text
  | keyword word => (TokenKind.keyword word).text
  | variableName => "variable name"
  | expression => "expression"

/-- Why a text is not a program. -/
inductive ParseError where
  /-- The token `found` cannot stand where it stands. -/
  | unexpectedToken (expected : Expected) (found : Token)
  /-- The text ends too early. -/
  | prematureEnd (expected : Expected) (position : Position)
  /-- A word is not a token. -/
  | lexical (error : LexError)

namespace ParseError

/-- The wording of an error. -/
def message : ParseError → String
  | unexpectedToken expected found => "Expecting " ++ expected.text ++ ", found " ++ found.text
  | prematureEnd expected position =>
    "Expecting " ++ expected.text ++ ", found end of input (" ++ position.text ++ ")"
  | lexical error => error.message

/-- Where an error was found. -/
def position : ParseError → Position
  | unexpectedToken _ found => found.position
  | prematureEnd _ position => position
  | lexical error => error.position

end ParseError

end Zaban
