import Zaban.Number.Numeral
import Zaban.Token.Basic

/-!
# Splitting a text into tokens

Between tokens stands **trivia**: white space, and comments that run from `#`
to the end of the line. The first character that is not trivia selects the
class of the next token, and the token is the longest run that belongs to the
class:

* a quote opens a string, which ends at the next quote that no backslash
  precedes; a backslash drops out and keeps the character behind it;
* a digit opens a number, digits with at most one point among them;
* a letter, an underscore or `λ` opens a name, whose later characters may also
  be digits and any of `?!-<>=`; seven names are keywords;
* a bracket, comma or semicolon is a token by itself;
* operator characters form a run.

Any other character is a fault, and is left unread.

`Cursor.readToken` reads one token. A `Lexer` reads them on demand and can hold
one token back; `scan` reads them all at once and says how the text ended.
-/

namespace Zaban

-- ----------------------------------------------------------------------------
-- Character classes
-- ----------------------------------------------------------------------------

/-- White space between tokens. -/
def isSpace (c : Char) : Bool :=
  [' ', '\t', '\n', '\r'].contains c

/-- May a name start with `c`? -/
def isNameStart (c : Char) : Bool :=
  c.isAlpha || c == 'λ' || c == '_'

/-- May a name go on with `c`? -/
def isNamePart (c : Char) : Bool :=
  isNameStart c || c.isDigit || ['?', '!', '-', '<', '>', '='].contains c

/-- Is `c` part of an operator? -/
def isOperatorChar (c : Char) : Bool :=
  ['+', '-', '*', '/', '%', '=', '&', '|', '<', '>', '!'].contains c

/-- Is `c` a token by itself? -/
def isPunctuation (c : Char) : Bool :=
  [',', ';', '(', ')', '{', '}', '[', ']'].contains c

-- ----------------------------------------------------------------------------
-- Trivia
-- ----------------------------------------------------------------------------

/-- Splits the trivia off the front of a text. Inside a comment every character up to the line feed
is trivia, the line feed included. -/
def splitTrivia : (inComment : Bool) → List Char → List Char × List Char
  | _, [] => ([], [])
  | true, c :: cs =>
    let (taken, rest) := splitTrivia (c != '\n') cs
    (c :: taken, rest)
  | false, c :: cs =>
    if isSpace c || c == '#' then
      let (taken, rest) := splitTrivia (c == '#') cs
      (c :: taken, rest)
    else ([], c :: cs)

/-- Trivia and what follows it make up the text. -/
theorem splitTrivia_append (inComment : Bool) (cs : List Char) :
    (splitTrivia inComment cs).1 ++ (splitTrivia inComment cs).2 = cs := by
  induction cs generalizing inComment with
  | nil => cases inComment <;> rfl
  | cons c cs ih =>
    cases inComment with
    | true => simp [splitTrivia, ih]
    | false =>
      rw [splitTrivia]
      split
      · simp [ih]
      · simp

/-- Moves past trivia. -/
def Cursor.skipTrivia (c : Cursor) : Cursor :=
  let (taken, rest) := splitTrivia false c.rest
  c.moved taken rest

-- ----------------------------------------------------------------------------
-- Lexemes
-- ----------------------------------------------------------------------------

/-- Splits the text behind an opening quote at the closing quote, which belongs to neither part. -/
def splitString : List Char → Option (List Char × List Char)
  | [] => none
  | ['\\'] => none
  | '\\' :: c :: cs => (splitString cs).map fun (body, rest) => ('\\' :: c :: body, rest)
  | c :: cs =>
    if c = '"' then some ([], cs)
    else (splitString cs).map fun (body, rest) => (c :: body, rest)

/-- A string, its closing quote and what follows it make up the text behind the opening quote. -/
theorem eq_append_of_splitString {cs body rest : List Char}
    (h : splitString cs = some (body, rest)) : cs = body ++ '"' :: rest := by
  fun_induction splitString cs generalizing body rest with
  | case1 => simp at h
  | case2 => simp at h
  | case3 c cs ih =>
    obtain ⟨⟨b, r⟩, hs, he⟩ := Option.map_eq_some_iff.1 h
    obtain ⟨rfl, rfl⟩ := Prod.mk.inj he
    simp [ih hs]
  | case4 cs =>
    obtain ⟨rfl, rfl⟩ := Prod.mk.inj (Option.some.inj h)
    rfl
  | case5 c cs _ _ _ ih =>
    obtain ⟨⟨b, r⟩, hs, he⟩ := Option.map_eq_some_iff.1 h
    obtain ⟨rfl, rfl⟩ := Prod.mk.inj he
    simp [ih hs]

/-- Drops each backslash and keeps the character behind it. -/
def unescape : List Char → List Char
  | '\\' :: c :: cs => c :: unescape cs
  | c :: cs => c :: unescape cs
  | [] => []

/-- Splits a numeral off the front of a text: digits, and if a point follows, the point and the
digits behind it. -/
def splitNumeral (cs : List Char) : List Char × List Char :=
  let whole := cs.takeWhile Char.isDigit
  match cs.dropWhile Char.isDigit with
  | '.' :: rest => (whole ++ '.' :: rest.takeWhile Char.isDigit, rest.dropWhile Char.isDigit)
  | rest => (whole, rest)

/-- A numeral and what follows it make up the text. -/
theorem splitNumeral_append (cs : List Char) :
    (splitNumeral cs).1 ++ (splitNumeral cs).2 = cs := by
  have whole := List.takeWhile_append_dropWhile (p := Char.isDigit) (l := cs)
  unfold splitNumeral
  split
  · rename_i rest h
    rw [h] at whole
    simpa using whole
  · exact whole

/-- What a name stands for: itself, unless it is a keyword. -/
def nameKind (word : String) : TokenKind :=
  match Keyword.ofText? word with
  | some k => .keyword k
  | none => .name word

/-- The outcome of reading one word: the characters it takes, those it leaves, and what it is. -/
structure Lexeme where
  taken : List Char
  rest : List Char
  kind : Except LexFault TokenKind

/-- Reads the word that starts with `c` and may go on with `cs`. -/
def Lexeme.read (c : Char) (cs : List Char) : Lexeme :=
  if c = '"' then
    match splitString cs with
    | some (body, rest) =>
      ⟨c :: body ++ ['"'], rest, .ok (.string (String.ofList (unescape body)))⟩
    | none => ⟨c :: cs, [], .error .unterminatedString⟩
  else if c.isDigit then
    let (taken, rest) := splitNumeral (c :: cs)
    ⟨taken, rest, .ok (.number (Numeral.value taken))⟩
  else if isNameStart c then
    let taken := c :: cs.takeWhile isNamePart
    ⟨taken, cs.dropWhile isNamePart, .ok (nameKind (String.ofList taken))⟩
  else if isPunctuation c then
    ⟨[c], cs, .ok (.punctuation c)⟩
  else if isOperatorChar c then
    let taken := c :: cs.takeWhile isOperatorChar
    ⟨taken, cs.dropWhile isOperatorChar, .ok (.operator (String.ofList taken))⟩
  else
    ⟨[], c :: cs, .error (.unexpectedCharacter c)⟩

/-- A word takes nothing but what stands at the front of the text. -/
theorem Lexeme.taken_append_rest (c : Char) (cs : List Char) :
    (read c cs).taken ++ (read c cs).rest = c :: cs := by
  unfold read
  split
  · -- a string, closed or not
    split
    · rename_i h
      simp [eq_append_of_splitString h]
    · simp
  · split
    · exact splitNumeral_append (c :: cs)
    · split
      · simp
      · split
        · simp
        · split <;> simp

/-- Skips trivia and reads one token; there is none at the end of the text. The cursor moves past
what was taken, also when the word is at fault. -/
def Cursor.readToken (c : Cursor) : Except LexError (Option Token) × Cursor :=
  let c := c.skipTrivia
  match c.rest with
  | [] => (.ok none, c)
  | x :: xs =>
    let word := Lexeme.read x xs
    let c' := c.moved word.taken word.rest
    match word.kind with
    | .ok kind => (.ok (some ⟨kind, c.position⟩), c')
    | .error fault => (.error (c'.fail fault), c')

-- ----------------------------------------------------------------------------
-- Reading on demand
-- ----------------------------------------------------------------------------

/-- A reader of tokens that can hold one token back, and that ends its own iteration at the first
error the iteration meets. -/
structure Lexer where
  cursor : Cursor
  ahead : Option Token
  stopped : Bool

namespace Lexer

/-- The reader at the start of `text`. -/
def ofText (text : String) : Lexer :=
  ⟨.ofText text, none, false⟩

/-- The position behind the last character that was read, the token held back included. -/
def position (l : Lexer) : Position :=
  l.cursor.position

/-- The next token, which stays the next one. An error leaves nothing held back. -/
def peek (l : Lexer) : Except LexError (Option Token) × Lexer :=
  match l.ahead with
  | some t => (.ok (some t), l)
  | none =>
    match l.cursor.readToken with
    | (.ok t?, cursor) => (.ok t?, { l with cursor, ahead := t? })
    | (.error e, cursor) => (.error e, { l with cursor })

/-- Takes the next token. -/
def next (l : Lexer) : Except LexError (Option Token) × Lexer :=
  match l.ahead with
  | some t => (.ok (some t), { l with ahead := none })
  | none =>
    let (result, cursor) := l.cursor.readToken
    (result, { l with cursor })

/-- Is there no further token? -/
def atEnd (l : Lexer) : Except LexError Bool × Lexer :=
  let (result, l) := l.peek
  (result.map Option.isNone, l)

/-- One step of an iteration over the tokens. It meets at most one error, and nothing after it. -/
def iterate (l : Lexer) : Option (Except LexError Token) × Lexer :=
  if l.stopped then (none, l)
  else
    match l.next with
    | (.ok (some t), l) => (some (.ok t), l)
    | (.ok none, l) => (none, l)
    | (.error e, l) => (some (.error e), { l with stopped := true })

/-- Iterates to the end, at most `fuel` steps: the tokens, the error if one ended the iteration, and
the reader afterwards. -/
def drain : (fuel : Nat) → Lexer → List Token × Option LexError × Lexer
  | 0, l => ([], none, l)
  | fuel + 1, l =>
    match l.iterate with
    | (some (.ok t), l) =>
      let (ts, failure, l) := drain fuel l
      (t :: ts, failure, l)
    | (some (.error e), l) => ([], some e, l)
    | (none, l) => ([], none, l)

/-- Iterates to the end. Each step but the last takes at least one character, or the token held
back. -/
def iterateAll (l : Lexer) : List Token × Option LexError × Lexer :=
  l.drain (l.cursor.rest.length + 2)

end Lexer

-- ----------------------------------------------------------------------------
-- Reading everything
-- ----------------------------------------------------------------------------

/-- How the tokens of a text end. -/
inductive Ending where
  /-- Everything was read; the position is that of the end. -/
  | finished (position : Position)
  /-- A word was at fault. -/
  | failed (error : LexError)

/-- The tokens of a text, up to its end or its first fault. -/
structure Scan where
  tokens : List Token
  ending : Ending

/-- Reads at most `fuel` tokens and the ending. -/
def scanFrom : (fuel : Nat) → Cursor → Scan
  | 0, c => ⟨[], .finished c.position⟩
  | fuel + 1, c =>
    match c.readToken with
    | (.ok (some t), c) =>
      let s := scanFrom fuel c
      ⟨t :: s.tokens, s.ending⟩
    | (.ok none, c) => ⟨[], .finished c.position⟩
    | (.error e, _) => ⟨[], .failed e⟩

/-- The tokens of `text` and how they end. Every token takes a character, so a text has no more
tokens than characters. -/
def scan (text : String) : Scan :=
  let c := Cursor.ofText text
  scanFrom (c.rest.length + 1) c

end Zaban
