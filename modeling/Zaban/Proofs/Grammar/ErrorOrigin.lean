import Zaban.Proofs.Grammar.Built
import Zaban.Proofs.Grammar.Sequence

/-!
# Where errors come from

A text that is not a program fails at a token, at its end, or at a word that is
not a token. The three exclude one another, and the error says which it was
(`errors_name_their_origin`).

Behind the last token, a reader does what the scan of the text left it to do.
Its error there is that of the end, with the position of the end, or the error
of the word at fault as it is (`Built.explains`). So two errors of one text
compete only if a token is refused before the word at fault, and then the token
wins: the readers never look that far ahead. It is the token that is refused in
the text up to the word, where all tokens are the same and the text just ends
(`Scan.parse_failed`).
-/

namespace Zaban

open Reader

-- ----------------------------------------------------------------------------
-- Behind the last token
-- ----------------------------------------------------------------------------

/-- How the scan of the text ended accounts for the error, unless a token was refused. -/
def Ending.Explains (fin : Ending) : ParseError → Prop
  | .unexpectedToken _ _ => True
  | .prematureEnd _ p => fin = .finished p
  | .lexical e => fin = .failed e

section Readers

variable {α : Type} {fin : Ending} {e : ParseError}

theorem Ending.explains_missing {expected : Expected} (h : fin.missing expected = .fault e) :
    fin.Explains e := by
  cases fin <;> cases h <;> rfl

theorem Ending.explains_close {a : α} (h : fin.close a = .error (.fault e)) : fin.Explains e := by
  cases fin <;> cases h
  rfl

/-- **Every error of a reader is that of a token or of the end.** -/
theorem Built.explains {p : Reader α} (h : Built fin p) {ts : List Token}
    (hFault : p ts = .error (.fault e)) : fin.Explains e := by
  induction h generalizing ts with
  | cut | done => cases hFault
  | missing => exact Ending.explains_missing (Except.error.inj hFault)
  | close => exact Ending.explains_close hFault
  | @andThen _ _ p f _ _ ihp ihf =>
    unfold Reader.andThen at hFault
    cases hRead : p ts with
    | error halt =>
      rw [hRead] at hFault
      obtain rfl := Except.error.inj hFault
      exact ihp hRead
    | ok phrase =>
      rw [hRead] at hFault
      exact ihf phrase.1 hFault
  | @look _ p move _ _ ihEnd ihMove =>
    cases ts with
    | nil => exact ihEnd hFault
    | cons t ts =>
      rw [Reader.look] at hFault
      have hNext := ihMove t
      generalize move t = m at hFault hNext
      cases m with
      | keep next => exact hNext next rfl hFault
      | take next => exact hNext next rfl hFault
      | refuse expected =>
        cases hFault
        trivial

theorem Scan.explains_of_parse {s : Scan} (h : s.parse = .error e) : s.ending.Explains e :=
  (readProgram_built _ _).explains (Scan.parse_eq_error_iff.mp h)

end Readers

/-- A text with a word at fault is no program. -/
theorem Scan.parse_failed_ne_ok {ts : List Token} {e : LexError} (n : Node) :
    (Scan.mk ts (.failed e)).parse ≠ .ok n := by
  intro hParse
  obtain ⟨xs, rfl⟩ : ∃ xs, n = .program xs := by
    unfold Scan.parse at hParse
    split at hParse <;> cases hParse
    exact ⟨_, rfl⟩
  cases Scan.finished_of_parse hParse

/-- **Only a refused token wins over a word at fault.** It is the one that is refused if nothing
stands behind the tokens. -/
theorem Scan.parse_failed {ts : List Token} (hNodup : ts.Nodup) (p : Position) (e : LexError) :
    (Scan.mk ts (.failed e)).parse =
      match (Scan.mk ts (.finished p)).parse with
      | .error (.unexpectedToken expected found) => .error (.unexpectedToken expected found)
      | _ => .error (.lexical e) := by
  have hAlike : ∀ {fin : Ending} (fin' : Ending) {expected found},
      (Scan.mk ts fin).parse = .error (.unexpectedToken expected found) →
      (Scan.mk ts fin').parse = .error (.unexpectedToken expected found) := by
    intro fin fin' expected found hRefused
    obtain ⟨before, rest, hTokens⟩ := Scan.exists_refused hRefused
    exact Scan.refused_alike hNodup hRefused hTokens hTokens rfl rfl
  cases hFailed : (Scan.mk ts (.failed e)).parse with
  | ok n => exact absurd hFailed (Scan.parse_failed_ne_ok n)
  | error error =>
    have hExplains := Scan.explains_of_parse hFailed
    cases error with
    | unexpectedToken expected found => rw [hAlike (.finished p) hFailed]
    | prematureEnd => cases hExplains
    | lexical e' =>
      obtain rfl : e = e' := Ending.failed.inj hExplains
      split
      · rename_i hRefused
        rw [hAlike (.failed e) hRefused] at hFailed
        cases hFailed
      · rfl

-- ----------------------------------------------------------------------------
-- The text before the word at fault
-- ----------------------------------------------------------------------------

/-- Without what it leaves, a text decomposes as before: the last word could only have been longer
with more text behind it. -/
theorem Decomposes.cut {before text past middle back : List Char} {ts : List Token}
    (h : Decomposes before text ts past (middle ++ back)) :
    ∃ front, text = front ++ back ∧ Decomposes before front ts past middle := by
  generalize hRest : middle ++ back = rest at h
  induction h with
  | done => exact ⟨middle, hRest.symm, .done⟩
  | @word before blank word text past rest kind ts hBlank hWord _ ih =>
    obtain ⟨front, rfl, hFront⟩ := ih hRest
    refine ⟨blank ++ word ++ front, by simp, .word hBlank (hWord.change ?_) hFront⟩
    cases front with
    | nil => exact Or.inr (by rintro c ⟨⟩)
    | cons c cs => exact Or.inl rfl

/-- Reading the text fails with `e` at the word that would begin behind `front`, at the front of
`back`. -/
def FailsAt (source : String) (front back : List Char) (e : LexError) : Prop :=
  ∃ ts past blank, Decomposes [] source.toList ts past (blank ++ back) ∧ Blank blank ∧
    front = past ++ blank ∧ (∀ c ∈ back.head?, isSpace c = false ∧ c ≠ '#') ∧
    EndsWith past (blank ++ back) (some e)

section Front

variable {source : String} {front back : List Char} {e : LexError}

theorem exists_failsAt (h : (Lexer.ofText source).iterateAll.2.1 = some e) :
    ∃ front back, FailsAt source front back e := by
  obtain ⟨past, rest, hText, hEnd⟩ := iterateAll_ends source
  rw [h] at hEnd
  obtain ⟨blank, back, hBlank, rfl, hBegins⟩ : ∃ blank back, Blank blank ∧ rest = blank ++ back ∧
      ∀ c ∈ back.head?, isSpace c = false ∧ c ≠ '#' := by
    cases hEnd with
    | unexpected hBlank hSpace hComment _ =>
      refine ⟨_, _, hBlank, rfl, ?_⟩
      rintro _ ⟨⟩
      exact ⟨hSpace, hComment⟩
    | unterminated hBlank _ =>
      refine ⟨_, _, hBlank, rfl, ?_⟩
      rintro _ ⟨⟩
      decide
  exact ⟨past ++ blank, back, _, past, blank, hText, hBlank, rfl, hBegins, hEnd⟩

/-- The text before the word at fault has the same tokens, and nothing behind them. -/
theorem FailsAt.scan_eq (h : FailsAt source front back e) :
    source.toList = front ++ back ∧ ∃ ts, scan source = ⟨ts, .failed e⟩ ∧
      scan (String.ofList front) = ⟨ts, .finished (.behind front)⟩ := by
  obtain ⟨ts, past, blank, hText, hBlank, rfl, -, hEnd⟩ := h
  obtain ⟨front, hSource, hFront⟩ := hText.cut
  obtain rfl : past ++ blank = front := hFront.append_eq
  rw [← String.toList_ofList (l := past ++ blank)] at hFront
  have hScan := Zaban.scan_eq hFront (.blank (Or.inl hBlank))
  rw [String.toList_ofList] at hScan
  exact ⟨hSource, ts, Zaban.scan_eq hText hEnd, hScan⟩

end Front

/--
**Every error names where it comes from.** A refused token is one of the tokens
that an iteration over the text yields. A text ends too early only if the
iteration ends quietly, and then the error stands at the end of the whole text,
blank text and comments included.

If the iteration fails, it does so at a word that begins somewhere in the text.
The text is then no program and does not end too early: its error is that of a
token refused in the text before the word, if there is one, and otherwise that
of the word.
-/
theorem errors_name_their_origin (source : String) :
    let plain := (Lexer.ofText source).iterateAll
    (∀ expected found, parse source = .error (.unexpectedToken expected found) →
      found ∈ plain.1) ∧
    (∀ expected p, parse source = .error (.prematureEnd expected p) →
      plain.2.1 = none ∧ p = .behind source.toList) ∧
    (∀ e, parse source = .error (.lexical e) → plain.2.1 = some e) ∧
    ∀ e, plain.2.1 = some e →
      (∃ front back, FailsAt source front back e) ∧
      ∀ front back, FailsAt source front back e → source.toList = front ++ back ∧
        parse source =
          match parse (String.ofList front) with
          | .error (.unexpectedToken expected found) => .error (.unexpectedToken expected found)
          | _ => .error (.lexical e) := by
  intro plain
  have hScan := scan_eq_iterateAll source
  refine ⟨?_, ?_, ?_, ?_⟩
  · intro expected found hParse
    obtain ⟨before, rest, hTokens⟩ := Scan.exists_refused hParse
    rw [hScan] at hTokens
    have hPlain : plain.1 = before ++ found :: rest := hTokens
    rw [hPlain]
    exact List.mem_append_right _ List.mem_cons_self
  · intro expected p hParse
    have hEnd : (scan source).ending = .finished p := Scan.explains_of_parse hParse
    rw [hScan] at hEnd
    exact Ending.ofFailure_eq_finished hEnd
  · intro e hParse
    have hEnd : (scan source).ending = .failed e := Scan.explains_of_parse hParse
    rw [hScan] at hEnd
    exact Ending.ofFailure_eq_failed hEnd
  · intro e hFailed
    refine ⟨exists_failsAt hFailed, fun front back hAt => ?_⟩
    obtain ⟨hSource, ts, hWhole, hFront⟩ := hAt.scan_eq
    have hNodup := scan_nodup source
    refine ⟨hSource, ?_⟩
    rw [hWhole] at hNodup
    rw [parse, parse, hWhole, hFront]
    exact Scan.parse_failed hNodup (.behind front) e

/-- A token refused before a word at fault, an open list of arguments in front of a comment, and one
in front of an open string. -/
theorem errors_name_their_origin_openList :
    (parse "a b @" = .error (.unexpectedToken (.punctuation ';') ⟨.name "b", ⟨1, 2⟩⟩) ∧
      ⟨.name "b", ⟨1, 2⟩⟩ ∈ (Lexer.ofText "a b @").iterateAll.1) ∧
    (parse "f(a #" = .error (.prematureEnd (.punctuation ')') ⟨1, 5⟩) ∧
      (Lexer.ofText "f(a #").iterateAll.2.1 = none ∧ ⟨1, 5⟩ = Position.behind "f(a #".toList) ∧
    parse "f(\")" = .error (.lexical ⟨.unterminatedString, ⟨1, 4⟩⟩) ∧
      ∃ front back, FailsAt "f(\")" front back ⟨.unterminatedString, ⟨1, 4⟩⟩ ∧
        parse "f(\")" =
          match parse (String.ofList front) with
          | .error (.unexpectedToken expected found) => .error (.unexpectedToken expected found)
          | _ => .error (.lexical ⟨.unterminatedString, ⟨1, 4⟩⟩) := by
  have hRefused : parse "a b @" =
      .error (.unexpectedToken (.punctuation ';') ⟨.name "b", ⟨1, 2⟩⟩) := rfl
  have hEnded : parse "f(a #" = .error (.prematureEnd (.punctuation ')') ⟨1, 5⟩) := rfl
  have hLexical : parse "f(\")" = .error (.lexical ⟨.unterminatedString, ⟨1, 4⟩⟩) := rfl
  have hFailed := (errors_name_their_origin "f(\")").2.2.1 _ hLexical
  obtain ⟨⟨front, back, hAt⟩, hAll⟩ := (errors_name_their_origin "f(\")").2.2.2 _ hFailed
  exact ⟨⟨hRefused, (errors_name_their_origin "a b @").1 _ _ hRefused⟩,
    ⟨hEnded, (errors_name_their_origin "f(a #").2.1 _ _ hEnded⟩,
    hLexical, front, back, hAt, (hAll front back hAt).2⟩

end Zaban
