import Mathlib.Data.List.Induction
import Zaban.Token.Lexer

/-!
# The words of the language

What a text consists of, said without saying how it is read. Words fall into
five classes. The first character of a word opens its class, and no character
opens two (`WordClass.opens_unique`):

* a **string** stands between quotes; in it, a backslash and the character
  behind it stand for that character;
* a **numeral** is digits, which a point and further digits may follow;
* an **identifier** is a name or a keyword;
* a **mark** is one punctuation character;
* a **symbol** is a run of operator characters.

A text is read by taking the longest word that stands at its front
(`Longest`), with blank text between the words. `Decomposes` lists the words of
a text in order; what is left behind the last one has no word at its front,
however much blank text is skipped (`Wordless`).
-/

namespace Zaban

-- ----------------------------------------------------------------------------
-- Words
-- ----------------------------------------------------------------------------

inductive WordClass where
  | string
  | numeral
  | identifier
  | mark
  | symbol
deriving DecidableEq

/-- A word of the class may start with `c`. -/
def WordClass.Opens (c : Char) : WordClass → Prop
  | string => c = '"'
  | numeral => c.isDigit = true
  | identifier => isNameStart c = true
  | mark => isPunctuation c = true
  | symbol => isOperatorChar c = true

/-- What stands between the quotes of a string, and the characters it stands for. -/
inductive Quotes : List Char → List Char → Prop where
  | nil : Quotes [] []
  | plain {c : Char} {cs ds : List Char} (hQuote : c ≠ '"') (hEscape : c ≠ '\\')
      (hRest : Quotes cs ds) : Quotes (c :: cs) (c :: ds)
  | escaped {c : Char} {cs ds : List Char} (hRest : Quotes cs ds) :
      Quotes ('\\' :: c :: cs) (c :: ds)

/-- The characters are a word of the class, and it means the given token. -/
inductive WordClass.Means : WordClass → List Char → TokenKind → Prop where
  | string {body value : List Char} (hBody : Quotes body value) :
      Means .string ('"' :: body ++ ['"']) (.string (String.ofList value))
  | whole {digits : List Char} (hSome : digits ≠ []) (hDigits : ∀ c ∈ digits, c.isDigit = true) :
      Means .numeral digits (.number (Numeral.value digits))
  | fraction {digits more : List Char} (hSome : digits ≠ [])
      (hDigits : ∀ c ∈ digits, c.isDigit = true) (hMore : ∀ c ∈ more, c.isDigit = true) :
      Means .numeral (digits ++ '.' :: more) (.number (Numeral.value (digits ++ '.' :: more)))
  | keyword {c : Char} {cs : List Char} {k : Keyword} (hStart : isNameStart c = true)
      (hParts : ∀ d ∈ cs, isNamePart d = true) (hSpelled : String.ofList (c :: cs) = k.text) :
      Means .identifier (c :: cs) (.keyword k)
  | name {c : Char} {cs : List Char} (hStart : isNameStart c = true)
      (hParts : ∀ d ∈ cs, isNamePart d = true)
      (hFree : ∀ k : Keyword, String.ofList (c :: cs) ≠ k.text) :
      Means .identifier (c :: cs) (.name (String.ofList (c :: cs)))
  | mark {c : Char} (hMark : isPunctuation c = true) : Means .mark [c] (.punctuation c)
  | symbol {c : Char} {cs : List Char} (hFirst : isOperatorChar c = true)
      (hRest : ∀ d ∈ cs, isOperatorChar d = true) :
      Means .symbol (c :: cs) (.operator (String.ofList (c :: cs)))

/-- `word` is the longest word at the front of the text, among those of the class that the first
character of the text opens. -/
def Longest (text word : List Char) (kind : TokenKind) : Prop :=
  ∃ cls : WordClass, (∃ c cs, text = c :: cs ∧ cls.Opens c) ∧ cls.Means word kind ∧ word <+: text ∧
    ∀ word' kind', cls.Means word' kind' → word' <+: text → word'.length ≤ word.length

-- ----------------------------------------------------------------------------
-- Blank text and positions
-- ----------------------------------------------------------------------------

/-- White space and comments, each comment with its line feed. -/
inductive Blank : List Char → Prop where
  | nil : Blank []
  | space {c : Char} {cs : List Char} (hSpace : isSpace c = true) (hRest : Blank cs) :
      Blank (c :: cs)
  | comment {body cs : List Char} (hLine : '\n' ∉ body) (hRest : Blank cs) :
      Blank ('#' :: body ++ '\n' :: cs)

/-- Blank text at the end of a text: the last comment may lack its line feed. -/
def BlankToEnd (r : List Char) : Prop :=
  Blank r ∨ ∃ w body, Blank w ∧ '\n' ∉ body ∧ r = w ++ '#' :: body

/-- The position behind some characters: one line more than there are line feeds among them, and as
many columns as characters behind the last line feed. -/
def Position.behind (cs : List Char) : Position :=
  ⟨1 + cs.count '\n', (cs.reverse.takeWhile (· != '\n')).length⟩

-- ----------------------------------------------------------------------------
-- Texts
-- ----------------------------------------------------------------------------

/-- The text, which stands behind `before`, begins with blank text and a word for each token, each
word as long as it can be. The characters up to the end of the last word are `past`, and `rest` is
left. -/
inductive Decomposes : (before text : List Char) → List Token → (past rest : List Char) → Prop where
  | done {before text : List Char} : Decomposes before text [] before text
  | word {before blank word text past rest : List Char} {kind : TokenKind} {ts : List Token}
      (hBlank : Blank blank) (hWord : Longest (word ++ text) word kind)
      (hRest : Decomposes (before ++ blank ++ word) text ts past rest) :
      Decomposes before (blank ++ word ++ text) (⟨kind, .behind (before ++ blank)⟩ :: ts) past rest

/-- Behind no blank text at the front of `r` stands a word. -/
def Wordless (r : List Char) : Prop :=
  ∀ blank word text cls kind, Blank blank → r = blank ++ word ++ text →
    ¬ WordClass.Means cls word kind

/-- How a text ends whose words end before `rest`: it is blank, or the first character that is not
blank opens no class, or it opens a string that is not closed. -/
inductive EndsWith : (past rest : List Char) → Option LexError → Prop where
  | blank {past rest : List Char} (hBlank : BlankToEnd rest) : EndsWith past rest none
  | unexpected {past blank cs : List Char} {c : Char} (hBlank : Blank blank)
      (hSpace : isSpace c = false) (hComment : c ≠ '#') (hNone : ∀ cls, ¬ WordClass.Opens c cls) :
      EndsWith past (blank ++ c :: cs)
        (some ⟨.unexpectedCharacter c, .behind (past ++ blank)⟩)
  | unterminated {past blank cs : List Char} (hBlank : Blank blank)
      (hOpen : ∀ body value rest, Quotes body value → cs ≠ body ++ '"' :: rest) :
      EndsWith past (blank ++ '"' :: cs)
        (some ⟨.unterminatedString, .behind (past ++ blank ++ '"' :: cs)⟩)

end Zaban
