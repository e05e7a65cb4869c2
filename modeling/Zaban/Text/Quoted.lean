import Zaban.Text.Hidden

/-!
# Quoted text

A text is shown **quoted** where it has to be told apart from the words
around it: string tokens, string literals, file names, and characters that no
token can start with. Between the quotes each character stands for itself,
except

* a backslash, and the quote that encloses the text, which follow a backslash;
* NUL, tab, line feed and carriage return, which have escapes of a letter;
* every other character without a glyph of its own, which is written by its
  code point in hexadecimal digits between braces.

The quote of the other kind is an ordinary character: the enclosing quote is
a parameter of `escapeChar`.
-/

namespace Zaban.Text

/-- The written form of `c` between two of the quotes `quote`. -/
def escapeChar (quote c : Char) : List Char :=
  if c = '\x00' then ['\\', '0']
  else if c = '\t' then ['\\', 't']
  else if c = '\r' then ['\\', 'r']
  else if c = '\n' then ['\\', 'n']
  else if c = '\\' || c = quote then ['\\', c]
  else if isHidden c then
    ['\\', 'u', '\x7b'] ++ Nat.toDigits 16 c.toNat ++ ['\x7d']
  else [c]

/-- The characters `cs` between two of the quotes `quote`. -/
def quoteChars (quote : Char) (cs : List Char) : List Char :=
  quote :: cs.flatMap (escapeChar quote) ++ [quote]

/-- The text `s` in double quotes. -/
def quoted (s : String) : String :=
  String.ofList (quoteChars '"' s.toList)

/-- The character `c` in single quotes. -/
def quotedChar (c : Char) : String :=
  String.ofList (quoteChars '\x27' [c])

end Zaban.Text
