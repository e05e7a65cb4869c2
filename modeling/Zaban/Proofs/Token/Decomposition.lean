import Zaban.Proofs.Token.Words

/-!
# Iterating over a text gives its words

Every text decomposes into words in exactly one way, and the iteration yields
the token of each word with the position of its first character. What is left
behind the last word decides how the iteration ends: blank text ends it
quietly, and anything else with the error that `EndsWith` names.

The induction follows the decomposition. One step of it is one call of
`Cursor.readToken` (`readToken_word`, `readToken_wordless`), and the fuel of
`Lexer.iterateAll` lasts because every word takes a character.
-/

namespace Zaban

-- ----------------------------------------------------------------------------
-- Positions
-- ----------------------------------------------------------------------------

theorem Position.after_start (cs : List Char) : Position.start.after cs = .behind cs := by
  induction cs using List.reverseRecOn with
  | nil => rfl
  | append_singleton cs c ih =>
    rw [Position.after_append, ih]
    show (Position.behind cs).advance c = _
    unfold Position.advance Position.behind
    rw [List.count_append, List.reverse_append, List.reverse_singleton, List.singleton_append]
    by_cases hLine : c = '\n'
    · subst hLine
      simp only [if_true, List.count_singleton_self, List.takeWhile_cons, bne_self_eq_false,
        Bool.false_eq_true, if_false, List.length_nil]
      rw [Nat.add_assoc]
    · have hColumn : (c != '\n') = true := by simpa using hLine
      simp only [hLine, if_false, List.takeWhile_cons, hColumn, if_true, List.length_cons,
        List.count_singleton, beq_iff_eq, Nat.add_zero]

theorem Position.after_behind (before cs : List Char) :
    (Position.behind before).after cs = .behind (before ++ cs) := by
  rw [← Position.after_start, ← Position.after_append, Position.after_start]

-- ----------------------------------------------------------------------------
-- Blank text
-- ----------------------------------------------------------------------------

section Trivia

variable {w body cs : List Char} {c : Char}

theorem splitTrivia_comment (h : '\n' ∉ body) (cs : List Char) :
    splitTrivia true (body ++ '\n' :: cs) =
      (body ++ '\n' :: (splitTrivia false cs).1, (splitTrivia false cs).2) := by
  induction body with
  | nil => rfl
  | cons b body ih =>
    obtain ⟨hHead, hTail⟩ := not_or.mp (mt List.mem_cons.mpr h)
    have hGoesOn : (b != '\n') = true := by simpa using Ne.symm hHead
    rw [List.cons_append, splitTrivia, hGoesOn, ih hTail]
    rfl

theorem splitTrivia_open (h : '\n' ∉ body) : splitTrivia true body = (body, []) := by
  induction body with
  | nil => rfl
  | cons b body ih =>
    obtain ⟨hHead, hTail⟩ := not_or.mp (mt List.mem_cons.mpr h)
    have hGoesOn : (b != '\n') = true := by simpa using Ne.symm hHead
    rw [splitTrivia, hGoesOn, ih hTail]

theorem splitTrivia_hash (cs : List Char) : splitTrivia false ('#' :: cs) =
    ('#' :: (splitTrivia true cs).1, (splitTrivia true cs).2) := rfl

theorem splitTrivia_blank (h : Blank w) (cs : List Char) :
    splitTrivia false (w ++ cs) = (w ++ (splitTrivia false cs).1, (splitTrivia false cs).2) := by
  induction h with
  | nil => rfl
  | @space c w hSpace _ ih =>
    have hHash : (c == '#') = false := by
      rw [beq_eq_false_iff_ne]
      rintro rfl
      exact absurd hSpace (by decide)
    rw [List.cons_append, splitTrivia, hSpace, hHash, ih]
    rfl
  | @comment body w hLine _ ih =>
    have hText : '#' :: body ++ '\n' :: w ++ cs = '#' :: (body ++ '\n' :: (w ++ cs)) := by simp
    rw [hText, splitTrivia_hash, splitTrivia_comment hLine, ih]
    simp

theorem splitTrivia_stop (hSpace : isSpace c = false) (hHash : c ≠ '#') (cs : List Char) :
    splitTrivia false (c :: cs) = ([], c :: cs) := by
  have hOther : (c == '#') = false := beq_eq_false_iff_ne.mpr hHash
  rw [splitTrivia, hSpace, hOther]
  rfl

/-- A text is blank up to its end, up to a comment without line feed, or up to a character that is
not blank. -/
theorem exists_blank (text : List Char) : ∃ w rest, Blank w ∧ text = w ++ rest ∧
    (rest = [] ∨ (∃ body, '\n' ∉ body ∧ rest = '#' :: body) ∨
      ∃ c cs, rest = c :: cs ∧ isSpace c = false ∧ c ≠ '#') := by
  induction hSize : text.length using Nat.strongRecOn generalizing text with
  | ind size ih =>
    cases text with
    | nil => exact ⟨[], [], .nil, rfl, Or.inl rfl⟩
    | cons c cs =>
      by_cases hSpace : isSpace c = true
      · obtain ⟨w, rest, hBlank, rfl, hRest⟩ := ih cs.length (by rw [← hSize]; simp) cs rfl
        exact ⟨c :: w, rest, .space hSpace hBlank, rfl, hRest⟩
      · rw [Bool.not_eq_true] at hSpace
        by_cases hHash : c = '#'
        · subst hHash
          by_cases hLine : '\n' ∈ cs
          · -- a comment with its line feed, and blank text behind it
            obtain ⟨body, tail, rfl, hBody⟩ := List.eq_append_cons_of_mem hLine
            have hShorter : tail.length < size := by
              rw [← hSize]
              simp only [List.length_cons, List.length_append]
              omega
            obtain ⟨w, rest, hBlank, rfl, hRest⟩ := ih tail.length hShorter tail rfl
            refine ⟨'#' :: body ++ '\n' :: w, rest, .comment hBody hBlank, ?_, hRest⟩
            simp
          · exact ⟨[], '#' :: cs, .nil, rfl, Or.inr (Or.inl ⟨cs, hLine, rfl⟩)⟩
        · exact ⟨[], c :: cs, .nil, rfl, Or.inr (Or.inr ⟨c, cs, rfl, hSpace, hHash⟩)⟩

theorem BlankToEnd.splitTrivia_snd {r : List Char} (h : BlankToEnd r) :
    (splitTrivia false r).2 = [] := by
  rcases h with hBlank | ⟨w, body, hBlank, hLine, rfl⟩
  · have hAll := splitTrivia_blank hBlank []
    rw [List.append_nil] at hAll
    rw [hAll]
    rfl
  · rw [splitTrivia_blank hBlank, splitTrivia_hash, splitTrivia_open hLine]

end Trivia

-- ----------------------------------------------------------------------------
-- One token
-- ----------------------------------------------------------------------------

theorem WordClass.Opens.not_blank {c : Char} {cls : WordClass} (h : cls.Opens c) :
    isSpace c = false ∧ c ≠ '#' := by
  have hAll : [' ', '\t', '\n', '\r', '#'].all (fun d => d != '"' && !d.isDigit &&
      !isNameStart d && !isPunctuation d && !isOperatorChar d) = true := by decide
  have hClosed : c ∉ [' ', '\t', '\n', '\r', '#'] := by
    intro hc
    have hNone := List.all_eq_true.mp hAll c hc
    simp only [Bool.and_eq_true, bne_iff_ne, Bool.not_eq_true'] at hNone
    obtain ⟨⟨⟨⟨hQuote, hDigit⟩, hName⟩, hMark⟩, hSymbol⟩ := hNone
    cases cls with
    | string => exact hQuote h
    | numeral => exact Bool.false_ne_true (hDigit.symm.trans h)
    | identifier => exact Bool.false_ne_true (hName.symm.trans h)
    | mark => exact Bool.false_ne_true (hMark.symm.trans h)
    | symbol => exact Bool.false_ne_true (hSymbol.symm.trans h)
  constructor
  · rw [Bool.eq_false_iff]
    intro hSpace
    have hMem : c ∈ [' ', '\t', '\n', '\r'] := List.contains_iff_mem.mp hSpace
    exact hClosed (List.mem_append_left ['#'] hMem)
  · rintro rfl
    exact hClosed (by decide)

/-- A word starts with a character that opens its class. -/
theorem WordClass.Means.opens {cls : WordClass} {word : List Char} {kind : TokenKind}
    (h : cls.Means word kind) : ∃ c cs, word = c :: cs ∧ cls.Opens c := by
  cases h with
  | string => exact ⟨_, _, rfl, rfl⟩
  | whole hSome hDigits =>
    cases word with
    | nil => exact absurd rfl hSome
    | cons d ds => exact ⟨d, ds, rfl, hDigits d List.mem_cons_self⟩
  | @fraction digits more hSome hDigits =>
    cases digits with
    | nil => exact absurd rfl hSome
    | cons d ds => exact ⟨d, ds ++ '.' :: more, rfl, hDigits d List.mem_cons_self⟩
  | keyword hStart => exact ⟨_, _, rfl, hStart⟩
  | name hStart => exact ⟨_, _, rfl, hStart⟩
  | mark hMark => exact ⟨_, _, rfl, hMark⟩
  | symbol hFirst => exact ⟨_, _, rfl, hFirst⟩

theorem Longest.ne_nil {text word : List Char} {kind : TokenKind} (h : Longest text word kind) :
    word ≠ [] := by
  obtain ⟨cls, -, hMeans, -, -⟩ := h
  obtain ⟨c, cs, rfl, -⟩ := hMeans.opens
  exact List.cons_ne_nil c cs

/-- If a word stands at the front of a text, so does a longest one. -/
theorem exists_longest {cls : WordClass} {word : List Char} {kind : TokenKind}
    (h : cls.Means word kind) (tail : List Char) :
    ∃ word' tail' kind', word ++ tail = word' ++ tail' ∧ Longest (word' ++ tail') word' kind' := by
  obtain ⟨c, cs, rfl, hOpens⟩ := h.opens
  cases hKind : (Lexeme.read c (cs ++ tail)).kind with
  | ok kind' =>
    have hText := Lexeme.taken_append_rest c (cs ++ tail)
    refine ⟨_, _, kind', hText.symm, ?_⟩
    rw [hText]
    exact longest_iff_read.mpr ⟨hKind, rfl⟩
  | error fault =>
    -- the word would close the string
    obtain ⟨rfl, rfl, hOpen⟩ := read_error hOpens hKind
    generalize hWord : '"' :: cs = word at h
    cases h with
    | @string body value hBody =>
      obtain rfl : cs = body ++ ['"'] := (List.cons.inj hWord).2
      have hClosed := hBody.splitString_eq tail
      rw [List.append_assoc] at hOpen
      exact absurd (hOpen.symm.trans hClosed) (Option.some_ne_none _).symm

section Tokens

variable {w word text rest past cs : List Char} {c : Char} {kind : TokenKind}

theorem skipTrivia_eq {before : List Char} (hBlank : Blank w)
    (hSpace : isSpace c = false) (hHash : c ≠ '#') :
    Cursor.skipTrivia ⟨w ++ c :: cs, .behind before⟩ = ⟨c :: cs, .behind (before ++ w)⟩ := by
  unfold Cursor.skipTrivia Cursor.moved
  simp only [splitTrivia_blank hBlank, splitTrivia_stop hSpace hHash, List.append_nil,
    Position.after_behind]

/-- **One step of the decomposition is one token read.** -/
theorem readToken_word (before : List Char) (hBlank : Blank w)
    (hWord : Longest (word ++ text) word kind) :
    Cursor.readToken ⟨w ++ word ++ text, .behind before⟩ =
      (.ok (some ⟨kind, .behind (before ++ w)⟩), ⟨text, .behind (before ++ w ++ word)⟩) := by
  obtain ⟨cls, ⟨c, cs, hText, hOpens⟩, -⟩ := id hWord
  obtain ⟨hSpace, hHash⟩ := hOpens.not_blank
  rw [hText] at hWord
  obtain ⟨hKind, hTaken⟩ := longest_iff_read.mp hWord
  have hRest : (Lexeme.read c cs).rest = text := by
    have hAll := Lexeme.taken_append_rest c cs
    rw [hTaken, ← hText] at hAll
    exact List.append_cancel_left hAll
  unfold Cursor.readToken
  rw [List.append_assoc, hText, skipTrivia_eq hBlank hSpace hHash]
  simp only [hKind, Cursor.moved, hTaken, hRest, Position.after_behind]

/-- Behind blank text everything is read. -/
theorem readToken_blank (h : BlankToEnd rest) (past : List Char) :
    Cursor.readToken ⟨rest, .behind past⟩ = (.ok none, ⟨[], .behind (past ++ rest)⟩) := by
  have hRest := h.splitTrivia_snd
  have hTaken : (splitTrivia false rest).1 = rest := by
    have hAll := splitTrivia_append false rest
    rwa [hRest, List.append_nil] at hAll
  unfold Cursor.readToken Cursor.skipTrivia Cursor.moved
  simp only [hRest, hTaken, Position.after_behind]

/-- A character that opens no word stays where it is. -/
theorem readToken_unexpected (hBlank : Blank w) (hSpace : isSpace c = false)
    (hHash : c ≠ '#') (hNone : ∀ cls, ¬ WordClass.Opens c cls) :
    Cursor.readToken ⟨w ++ c :: cs, .behind past⟩ =
      (.error ⟨.unexpectedCharacter c, .behind (past ++ w)⟩,
        ⟨c :: cs, .behind (past ++ w)⟩) := by
  unfold Cursor.readToken
  rw [skipTrivia_eq hBlank hSpace hHash]
  simp only [read_unopened hNone, Cursor.fail, Cursor.moved, Position.after_nil]

/-- A string that is not closed is read to the end of the text. -/
theorem readToken_unterminated (hBlank : Blank w)
    (hOpen : ∀ body value rest, Quotes body value → cs ≠ body ++ '"' :: rest) :
    Cursor.readToken ⟨w ++ '"' :: cs, .behind past⟩ =
      (.error ⟨.unterminatedString, .behind (past ++ w ++ '"' :: cs)⟩,
        ⟨[], .behind (past ++ w ++ '"' :: cs)⟩) := by
  unfold Cursor.readToken
  rw [skipTrivia_eq hBlank rfl (by decide)]
  simp only [read_string_eq, splitString_eq_none_iff.mpr hOpen, Cursor.fail, Cursor.moved,
    Position.after_behind]

/-- Where no word follows, reading ends as the rest of the text says. -/
theorem readToken_wordless (h : Wordless rest) (past : List Char) : ∃ failure,
    EndsWith past rest failure ∧ (Cursor.readToken ⟨rest, .behind past⟩).1 =
      match failure with
      | none => .ok none
      | some e => .error e := by
  obtain ⟨w, tail, hBlank, rfl, hTail⟩ := exists_blank rest
  rcases hTail with rfl | ⟨body, hLine, rfl⟩ | ⟨c, cs, rfl, hSpace, hHash⟩
  · have hEnd : BlankToEnd (w ++ []) := Or.inl (by rwa [List.append_nil])
    exact ⟨none, .blank hEnd, by rw [readToken_blank hEnd]⟩
  · have hEnd : BlankToEnd (w ++ '#' :: body) := Or.inr ⟨w, body, hBlank, hLine, rfl⟩
    exact ⟨none, .blank hEnd, by rw [readToken_blank hEnd]⟩
  · by_cases hOpens : ∃ cls : WordClass, cls.Opens c
    · obtain ⟨cls, hOpens⟩ := hOpens
      cases hKind : (Lexeme.read c cs).kind with
      | ok kind =>
        -- a word was read, against the hypothesis
        have hText := Lexeme.taken_append_rest c cs
        have hMeans := (read_means hOpens hKind).1
        refine absurd hMeans (h w _ (Lexeme.read c cs).rest cls kind hBlank ?_)
        rw [List.append_assoc, hText]
      | error fault =>
        obtain ⟨rfl, -, hSplit⟩ := read_error hOpens hKind
        have hOpen := splitString_eq_none_iff.mp hSplit
        exact ⟨_, .unterminated hBlank hOpen, by rw [readToken_unterminated hBlank hOpen]⟩
    · have hNone : ∀ cls : WordClass, ¬ cls.Opens c := fun cls hc => hOpens ⟨cls, hc⟩
      refine ⟨_, .unexpected hBlank hSpace hHash hNone, ?_⟩
      rw [readToken_unexpected hBlank hSpace hHash hNone]

end Tokens

-- ----------------------------------------------------------------------------
-- Whole texts
-- ----------------------------------------------------------------------------

section Texts

variable {before text past past' rest rest' : List Char} {ts ts' : List Token}

/-- Every text decomposes into words. -/
theorem exists_decomposes (before text : List Char) :
    ∃ ts past rest, Decomposes before text ts past rest ∧ Wordless rest := by
  induction hSize : text.length using Nat.strongRecOn generalizing before text with
  | ind size ih =>
    by_cases hEnd : Wordless text
    · exact ⟨[], before, text, .done, hEnd⟩
    · unfold Wordless at hEnd
      push Not at hEnd
      obtain ⟨blank, word, tail, cls, kind, hBlank, rfl, hMeans⟩ := hEnd
      obtain ⟨word', tail', kind', hText, hLongest⟩ := exists_longest hMeans tail
      rw [List.append_assoc, hText, ← List.append_assoc] at hSize ⊢
      have hShorter : tail'.length < size := by
        have hTaken := List.length_pos_iff.mpr hLongest.ne_nil
        rw [← hSize, List.length_append, List.length_append]
        omega
      obtain ⟨ts, past, rest, hRest, hWordless⟩ :=
        ih tail'.length hShorter (before ++ blank ++ word') tail' rfl
      exact ⟨_, past, rest, .word hBlank hLongest hRest, hWordless⟩

theorem Decomposes.append_eq (h : Decomposes before text ts past rest) :
    past ++ rest = before ++ text := by
  induction h with
  | done => rfl
  | word _ _ _ ih =>
    rw [ih]
    simp only [List.append_assoc]

theorem not_wordless {blank word tail : List Char} {kind : TokenKind} (hBlank : Blank blank)
    (hWord : Longest (word ++ tail) word kind) : ¬ Wordless (blank ++ word ++ tail) := by
  intro hEnd
  obtain ⟨cls, -, hMeans, -, -⟩ := hWord
  exact hEnd blank word tail cls kind hBlank rfl hMeans

/-- A text decomposes in one way only: both decompositions begin with the token that is read. -/
theorem Decomposes.unique (h : Decomposes before text ts past rest) (hEnd : Wordless rest)
    (h' : Decomposes before text ts' past' rest') (hEnd' : Wordless rest') :
    ts = ts' ∧ past = past' ∧ rest = rest' := by
  induction h generalizing ts' with
  | done =>
    cases h' with
    | done => exact ⟨rfl, rfl, rfl⟩
    | word hBlank hWord => exact absurd hEnd (not_wordless hBlank hWord)
  | @word before blank word text past rest kind ts hBlank hWord hRest ih =>
    generalize hText : blank ++ word ++ text = whole at h'
    cases h' with
    | done =>
      subst hText
      exact absurd hEnd' (not_wordless hBlank hWord)
    | @word _ blank' word' text' _ _ kind' ts'' hBlank' hWord' hRest' =>
      have hRead := readToken_word before hBlank hWord
      rw [hText, readToken_word before hBlank' hWord'] at hRead
      obtain ⟨hToken, hCursor⟩ := Prod.mk.inj hRead
      obtain rfl : text' = text := (Cursor.mk.inj hCursor).1
      have hTaken : before ++ blank ++ word = before ++ blank' ++ word' := by
        have hFront := List.append_cancel_right hText
        rw [List.append_assoc, hFront, ← List.append_assoc]
      rw [← hTaken] at hRest'
      obtain ⟨rfl, rfl, rfl⟩ := ih hEnd hRest'
      refine ⟨?_, rfl, rfl⟩
      rw [Option.some.inj (Except.ok.inj hToken)]

/-- The iteration yields the tokens of the decomposition. -/
theorem drain_eq (h : Decomposes before text ts past rest) (hEnd : Wordless rest) {fuel : Nat}
    (hFuel : text.length < fuel) : ∃ failure, EndsWith past rest failure ∧
      (Lexer.drain fuel ⟨⟨text, .behind before⟩, none, false⟩).1 = ts ∧
      (Lexer.drain fuel ⟨⟨text, .behind before⟩, none, false⟩).2.1 = failure := by
  induction h generalizing fuel with
  | @done before text =>
    obtain ⟨fuel, rfl⟩ := Nat.exists_eq_add_one_of_ne_zero (Nat.ne_zero_of_lt hFuel)
    obtain ⟨failure, hEnds, hRead⟩ := readToken_wordless hEnd before
    refine ⟨failure, hEnds, ?_⟩
    rcases hStep : Cursor.readToken ⟨text, .behind before⟩ with ⟨result, cursor⟩
    rw [hStep] at hRead
    obtain rfl : result = _ := hRead
    rw [Lexer.drain]
    cases failure with
    | none => simp [Lexer.iterate, Lexer.next, hStep]
    | some e => simp [Lexer.iterate, Lexer.next, hStep]
  | @word before blank word text past rest kind ts hBlank hWord hRest ih =>
    obtain ⟨fuel, rfl⟩ := Nat.exists_eq_add_one_of_ne_zero (Nat.ne_zero_of_lt hFuel)
    have hTaken := List.length_pos_iff.mpr hWord.ne_nil
    rw [List.length_append, List.length_append] at hFuel
    have hLess : text.length < fuel := by omega
    obtain ⟨failure, hEnds, hTokens, hFailure⟩ := ih hEnd hLess
    refine ⟨failure, hEnds, ?_⟩
    have hStep := readToken_word before hBlank hWord
    rw [Lexer.drain]
    simp only [Lexer.iterate, Lexer.next, hStep, Bool.false_eq_true, if_false]
    rw [hTokens, hFailure]
    exact ⟨rfl, rfl⟩

theorem EndsWith.eq_none_iff {failure : Option LexError} (h : EndsWith past rest failure) :
    failure = none ↔ BlankToEnd rest := by
  cases h with
  | blank hBlank => exact ⟨fun _ => hBlank, fun _ => rfl⟩
  | unexpected hBlank hSpace hHash =>
    refine ⟨fun hNone => absurd hNone (Option.some_ne_none _), ?_⟩
    intro hEnd
    have hLeft := hEnd.splitTrivia_snd
    rw [splitTrivia_blank hBlank, splitTrivia_stop hSpace hHash] at hLeft
    cases hLeft
  | unterminated hBlank =>
    refine ⟨fun hNone => absurd hNone (Option.some_ne_none _), ?_⟩
    intro hEnd
    have hLeft := hEnd.splitTrivia_snd
    rw [splitTrivia_blank hBlank, splitTrivia_stop rfl (by decide)] at hLeft
    cases hLeft

end Texts

/-- **Iterating over a text yields the tokens of its words.** Every text has one decomposition into
blank text and longest words, and the iteration yields a token for each word, with the meaning of
the word and the position behind the characters before it. It ends without an error exactly when
what is left is blank, and otherwise with the error at the first character that no word starts with
or behind the text of an open string. -/
theorem iterateAll_yields_words (text : String) :
    let run := (Lexer.ofText text).iterateAll
    ∃ past rest, past ++ rest = text.toList ∧
      (∀ ts past' rest', Decomposes [] text.toList ts past' rest' ∧ Wordless rest' ↔
        ts = run.1 ∧ past' = past ∧ rest' = rest) ∧
      EndsWith past rest run.2.1 ∧ (run.2.1 = none ↔ BlankToEnd rest) := by
  obtain ⟨ts, past, rest, hText, hEnd⟩ := exists_decomposes [] text.toList
  have hFuel : text.toList.length < text.toList.length + 2 := by omega
  obtain ⟨failure, hEnds, hTokens, rfl⟩ := drain_eq hText hEnd hFuel
  refine ⟨past, rest, hText.append_eq, ?_, hEnds, hEnds.eq_none_iff⟩
  intro ts' past' rest'
  constructor
  · rintro ⟨hText', hEnd'⟩
    obtain ⟨rfl, rfl, rfl⟩ := hText'.unique hEnd' hText hEnd
    exact ⟨hTokens.symm, rfl, rfl⟩
  · rintro ⟨rfl, rfl, rfl⟩
    refine ⟨?_, hEnd⟩
    have hSame : (Lexer.ofText text).iterateAll.1 = ts := hTokens
    rw [hSame]
    exact hText

end Zaban
