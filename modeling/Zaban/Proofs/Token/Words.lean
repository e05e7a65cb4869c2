import Mathlib.Data.List.TakeWhile
import Zaban.Proofs.Token.Vocabulary

/-!
# Reading one word

`Lexeme.read` takes the longest word at the front of a text, of the class that
the first character opens, and gives the token it means (`longest_iff_read`).
It fails in two cases only: the character opens no class, or it opens a string
that is not closed.
-/

namespace Zaban

-- ----------------------------------------------------------------------------
-- The classes are disjoint
-- ----------------------------------------------------------------------------

theorem not_isDigit_of_isNameStart {c : Char} (h : isNameStart c = true) : ¬ c.isDigit = true := by
  intro hDigit
  have hUpTo : c.val.toNat ≤ 57 := (Char.isDigit_iff_toNat.mp hDigit).2
  simp only [isNameStart, Bool.or_eq_true, beq_iff_eq] at h
  rcases h with (hAlpha | rfl) | rfl
  · -- letters come behind the digits
    rcases (Bool.or_eq_true _ _).mp hAlpha with hUpper | hLower
    · have hFrom : 65 ≤ c.val.toNat := UInt32.le_iff_toNat_le.mp (of_decide_eq_true hUpper).1
      omega
    · have hBoth := (Bool.and_eq_true _ _).mp hLower
      have hFrom : 97 ≤ c.val.toNat := UInt32.le_iff_toNat_le.mp (of_decide_eq_true hBoth.1)
      omega
  · exact absurd hDigit (by decide)
  · exact absurd hDigit (by decide)

theorem mark_opens {c : Char} (h : isPunctuation c = true) :
    c ≠ '"' ∧ c.isDigit = false ∧ isNameStart c = false ∧ isOperatorChar c = false := by
  have hAll : [',', ';', '(', ')', '{', '}', '[', ']'].all (fun d =>
      d != '"' && !d.isDigit && !isNameStart d && !isOperatorChar d) = true := by decide
  have hc := List.all_eq_true.mp hAll c (List.contains_iff_mem.mp h)
  simpa [and_assoc] using hc

theorem symbol_opens {c : Char} (h : isOperatorChar c = true) :
    c ≠ '"' ∧ c.isDigit = false ∧ isNameStart c = false := by
  have hAll : ['+', '-', '*', '/', '%', '=', '&', '|', '<', '>', '!'].all (fun d =>
      d != '"' && !d.isDigit && !isNameStart d) = true := by decide
  have hc := List.all_eq_true.mp hAll c (List.contains_iff_mem.mp h)
  simpa [and_assoc] using hc

/-- No character opens two classes. -/
theorem WordClass.opens_unique {c : Char} {cls cls' : WordClass} (h : cls.Opens c)
    (h' : cls'.Opens c) : cls = cls' := by
  have hSelect : ∀ k : WordClass, k.Opens c →
      (if c = '"' then some WordClass.string else if c.isDigit then some .numeral
        else if isNameStart c then some .identifier else if isPunctuation c then some .mark
        else if isOperatorChar c then some .symbol else none) = some k := by
    intro k hk
    cases k with
    | string => exact if_pos hk
    | numeral =>
      change c.isDigit = true at hk
      have hQuote : c ≠ '"' := by
        rintro rfl
        exact absurd hk (by decide)
      rw [if_neg hQuote, if_pos hk]
    | identifier =>
      change isNameStart c = true at hk
      have hQuote : c ≠ '"' := by
        rintro rfl
        exact absurd hk (by decide)
      rw [if_neg hQuote, if_neg (not_isDigit_of_isNameStart hk), if_pos hk]
    | mark =>
      obtain ⟨hQuote, hDigit, hName, -⟩ := mark_opens hk
      rw [if_neg hQuote, hDigit, hName]
      exact if_pos hk
    | symbol =>
      obtain ⟨hQuote, hDigit, hName⟩ := symbol_opens hk
      have hMark : ¬ isPunctuation c = true := by
        intro hm
        exact Bool.false_ne_true ((mark_opens hm).2.2.2.symm.trans hk)
      rw [if_neg hQuote, hDigit, hName]
      simp only [Bool.false_eq_true, if_false, hMark]
      exact if_pos hk
  exact Option.some.inj ((hSelect cls h).symm.trans (hSelect cls' h'))

theorem WordClass.not_opens {c : Char} {cls : WordClass} (cls' : WordClass) (h : cls.Opens c)
    (hNe : cls' ≠ cls) : ¬ cls'.Opens c :=
  fun h' => hNe (opens_unique h' h)

-- ----------------------------------------------------------------------------
-- Strings
-- ----------------------------------------------------------------------------

section Strings

variable {body value rest cs : List Char}

theorem Quotes.splitString_eq (h : Quotes body value) (rest : List Char) :
    splitString (body ++ '"' :: rest) = some (body, rest) := by
  induction h with
  | nil => rfl
  | @plain c cs ds hQuote hEscape _ ih =>
    rw [List.cons_append, splitString, if_neg hQuote, ih]
    · rfl
    · intro hEq
      exact absurd hEq hEscape
    · intro d ds hEq
      exact absurd hEq hEscape
  | escaped _ ih =>
    rw [List.cons_append, List.cons_append, splitString, ih]
    rfl

theorem Quotes.unescape_eq (h : Quotes body value) : unescape body = value := by
  induction h with
  | nil => rfl
  | plain _ hEscape _ ih =>
    rw [unescape, ih]
    intro d ds hEq
    exact absurd hEq hEscape
  | escaped _ ih => rw [unescape, ih]

theorem quotes_of_splitString (h : splitString cs = some (body, rest)) :
    Quotes body (unescape body) := by
  fun_induction splitString cs generalizing body rest with
  | case1 => cases h
  | case2 => cases h
  | case3 c cs ih =>
    obtain ⟨⟨b, r⟩, hSplit, hEq⟩ := Option.map_eq_some_iff.mp h
    obtain ⟨rfl, rfl⟩ := Prod.mk.inj hEq
    rw [unescape]
    exact .escaped (ih hSplit)
  | case4 cs =>
    obtain ⟨rfl, rfl⟩ := Prod.mk.inj (Option.some.inj h)
    exact .nil
  | case5 c cs hLone hEscape hQuote ih =>
    obtain ⟨⟨b, r⟩, hSplit, hEq⟩ := Option.map_eq_some_iff.mp h
    obtain ⟨rfl, rfl⟩ := Prod.mk.inj hEq
    have hPlain : c ≠ '\\' := by
      rintro rfl
      cases cs with
      | nil => exact hLone rfl rfl
      | cons d ds => exact hEscape d ds rfl rfl
    rw [unescape]
    · exact .plain hQuote hPlain (ih hSplit)
    · intro d ds hEq
      exact absurd hEq hPlain

/-- A string is not closed when the text behind the quote has no closing quote. -/
theorem splitString_eq_none_iff :
    splitString cs = none ↔ ∀ body value rest, Quotes body value → cs ≠ body ++ '"' :: rest := by
  constructor
  · rintro hNone body value rest hQuotes rfl
    rw [hQuotes.splitString_eq] at hNone
    cases hNone
  · intro hOpen
    cases hSplit : splitString cs with
    | none => rfl
    | some parts =>
      obtain ⟨body, rest⟩ := parts
      have hText := eq_append_of_splitString hSplit
      exact absurd hText (hOpen body _ rest (quotes_of_splitString hSplit))

end Strings

-- ----------------------------------------------------------------------------
-- Runs, numerals and identifiers
-- ----------------------------------------------------------------------------

section Runs

variable {p : Char → Bool} {run text : List Char}

/-- Of the runs at the front of a text, `takeWhile` gives the longest. -/
theorem length_le_takeWhile (hRun : ∀ c ∈ run, p c = true) (hFront : run <+: text) :
    run.length ≤ (text.takeWhile p).length := by
  obtain ⟨rest, rfl⟩ := hFront
  rw [List.takeWhile_append_of_pos hRun, List.length_append]
  exact Nat.le_add_right _ _

end Runs

section Numerals

variable {digits more text rest : List Char}

theorem splitNumeral_point (h : text.dropWhile Char.isDigit = '.' :: rest) :
    (splitNumeral text).1 = text.takeWhile Char.isDigit ++ '.' :: rest.takeWhile Char.isDigit := by
  unfold splitNumeral
  rw [h]
  rfl

theorem splitNumeral_whole (h : ∀ rest, text.dropWhile Char.isDigit ≠ '.' :: rest) :
    (splitNumeral text).1 = text.takeWhile Char.isDigit := by
  unfold splitNumeral
  split
  · rename_i rest hPoint
    exact absurd hPoint (h rest)
  · rfl

theorem numeral_means {c : Char} {cs : List Char} (hDigit : c.isDigit = true) :
    WordClass.Means .numeral (splitNumeral (c :: cs)).1
      (.number (Numeral.value (splitNumeral (c :: cs)).1)) := by
  have hSome : (c :: cs).takeWhile Char.isDigit ≠ [] := by
    rw [List.takeWhile_cons, if_pos hDigit]
    exact List.cons_ne_nil _ _
  by_cases hPoint : ∃ rest, (c :: cs).dropWhile Char.isDigit = '.' :: rest
  · obtain ⟨rest, hRest⟩ := hPoint
    rw [splitNumeral_point hRest]
    refine .fraction hSome ?_ ?_
    · intro d hd
      exact List.mem_takeWhile_imp hd
    · intro d hd
      exact List.mem_takeWhile_imp hd
  · rw [splitNumeral_whole fun rest hRest => hPoint ⟨rest, hRest⟩]
    exact .whole hSome fun d hd => List.mem_takeWhile_imp hd

theorem takeWhile_le_splitNumeral (text : List Char) :
    (text.takeWhile Char.isDigit).length ≤ (splitNumeral text).1.length := by
  by_cases hPoint : ∃ rest, text.dropWhile Char.isDigit = '.' :: rest
  · obtain ⟨rest, hRest⟩ := hPoint
    rw [splitNumeral_point hRest, List.length_append]
    exact Nat.le_add_right _ _
  · rw [splitNumeral_whole fun rest hRest => hPoint ⟨rest, hRest⟩]

/-- A numeral with a point that stands at the front of a text fixes where the point is. -/
theorem fraction_le_splitNumeral (hDigits : ∀ c ∈ digits, c.isDigit = true)
    (hMore : ∀ c ∈ more, c.isDigit = true) (hFront : digits ++ '.' :: more <+: text) :
    (digits ++ '.' :: more).length ≤ (splitNumeral text).1.length := by
  obtain ⟨rest, rfl⟩ := hFront
  rw [List.append_assoc, List.cons_append]
  have hPoint : ('.' : Char).isDigit = false := by decide
  have hWhole : (digits ++ '.' :: (more ++ rest)).takeWhile Char.isDigit = digits := by
    rw [List.takeWhile_append_of_pos hDigits, List.takeWhile_cons, hPoint]
    exact List.append_nil digits
  have hRest : (digits ++ '.' :: (more ++ rest)).dropWhile Char.isDigit =
      '.' :: (more ++ rest) := by
    rw [List.dropWhile_append_of_pos hDigits, List.dropWhile_cons, hPoint]
    rfl
  have hTail := length_le_takeWhile hMore (List.prefix_append more rest)
  rw [splitNumeral_point hRest, hWhole, List.length_append, List.length_append,
    List.length_cons, List.length_cons]
  omega

end Numerals

section Identifiers

theorem Keyword.text_injective {k k' : Keyword} (h : k.text = k'.text) : k = k' := by
  have hSame := congrArg Keyword.ofText? h
  rw [Keyword.ofText?_text, Keyword.ofText?_text] at hSame
  exact Option.some.inj hSame

theorem Keyword.text_of_ofText? {word : String} {k : Keyword} (h : Keyword.ofText? word = some k) :
    word = k.text := by
  have hFound := List.find?_some h
  exact (beq_iff_eq.mp hFound).symm

/-- A name is a keyword exactly when the whole of it is spelled like one. -/
theorem identifier_means {c : Char} {cs : List Char} (hStart : isNameStart c = true)
    (hParts : ∀ d ∈ cs, isNamePart d = true) :
    WordClass.Means .identifier (c :: cs) (nameKind (String.ofList (c :: cs))) := by
  unfold nameKind
  cases hWord : Keyword.ofText? (String.ofList (c :: cs)) with
  | some k => exact .keyword hStart hParts (Keyword.text_of_ofText? hWord)
  | none =>
    refine .name hStart hParts ?_
    intro k hk
    rw [hk, Keyword.ofText?_text] at hWord
    cases hWord

end Identifiers

-- ----------------------------------------------------------------------------
-- One word
-- ----------------------------------------------------------------------------

/-- A word means one token. -/
theorem WordClass.Means.unique {cls : WordClass} {word : List Char} {kind kind' : TokenKind}
    (h : cls.Means word kind) (h' : cls.Means word kind') : kind = kind' := by
  cases h with
  | @string body value hBody =>
    generalize hWord : '"' :: body ++ ['"'] = word at h'
    cases h' with
    | @string body' value' hBody' =>
      have hSame : body = body' := List.append_cancel_right (List.cons.inj hWord).2
      subst hSame
      rw [← hBody.unescape_eq, ← hBody'.unescape_eq]
  | whole => cases h' <;> rfl
  | @fraction digits more =>
    generalize hWord : digits ++ '.' :: more = word at h'
    cases h' with
    | whole => rfl
    | fraction => rfl
  | keyword hStart hParts hSpelled =>
    cases h' with
    | keyword _ _ hSpelled' =>
      rw [Keyword.text_injective (hSpelled.symm.trans hSpelled')]
    | name _ _ hFree => exact absurd hSpelled (hFree _)
  | name _ _ hFree =>
    cases h' with
    | keyword _ _ hSpelled => exact absurd hSpelled (hFree _)
    | name => rfl
  | mark =>
    cases h'
    rfl
  | symbol =>
    cases h'
    rfl

section Reading

variable {c : Char} {cs : List Char} {cls : WordClass} {kind : TokenKind}

theorem read_string_eq : Lexeme.read '"' cs =
    match splitString cs with
    | some (body, rest) =>
      ⟨'"' :: body ++ ['"'], rest, .ok (.string (String.ofList (unescape body)))⟩
    | none => ⟨'"' :: cs, [], .error .unterminatedString⟩ := rfl

theorem read_numeral_eq (h : WordClass.Opens c .numeral) : Lexeme.read c cs =
    ⟨(splitNumeral (c :: cs)).1, (splitNumeral (c :: cs)).2,
      .ok (.number (Numeral.value (splitNumeral (c :: cs)).1))⟩ := by
  have hQuote : c ≠ '"' := WordClass.not_opens .string h (by decide)
  unfold Lexeme.read
  rw [if_neg hQuote]
  exact if_pos h

theorem read_identifier_eq (h : WordClass.Opens c .identifier) : Lexeme.read c cs =
    ⟨c :: cs.takeWhile isNamePart, cs.dropWhile isNamePart,
      .ok (nameKind (String.ofList (c :: cs.takeWhile isNamePart)))⟩ := by
  have hQuote : c ≠ '"' := WordClass.not_opens .string h (by decide)
  have hDigit : ¬ c.isDigit = true := WordClass.not_opens .numeral h (by decide)
  unfold Lexeme.read
  rw [if_neg hQuote, if_neg hDigit]
  exact if_pos h

theorem read_mark_eq (h : WordClass.Opens c .mark) :
    Lexeme.read c cs = ⟨[c], cs, .ok (.punctuation c)⟩ := by
  have hQuote : c ≠ '"' := WordClass.not_opens .string h (by decide)
  have hDigit : ¬ c.isDigit = true := WordClass.not_opens .numeral h (by decide)
  have hName : ¬ isNameStart c = true := WordClass.not_opens .identifier h (by decide)
  unfold Lexeme.read
  rw [if_neg hQuote, if_neg hDigit, if_neg hName]
  exact if_pos h

theorem read_symbol_eq (h : WordClass.Opens c .symbol) : Lexeme.read c cs =
    ⟨c :: cs.takeWhile isOperatorChar, cs.dropWhile isOperatorChar,
      .ok (.operator (String.ofList (c :: cs.takeWhile isOperatorChar)))⟩ := by
  have hQuote : c ≠ '"' := WordClass.not_opens .string h (by decide)
  have hDigit : ¬ c.isDigit = true := WordClass.not_opens .numeral h (by decide)
  have hName : ¬ isNameStart c = true := WordClass.not_opens .identifier h (by decide)
  have hMark : ¬ isPunctuation c = true := WordClass.not_opens .mark h (by decide)
  unfold Lexeme.read
  rw [if_neg hQuote, if_neg hDigit, if_neg hName, if_neg hMark]
  exact if_pos h

theorem read_unopened (h : ∀ cls, ¬ WordClass.Opens c cls) :
    Lexeme.read c cs = ⟨[], c :: cs, .error (.unexpectedCharacter c)⟩ := by
  have hQuote : ¬ c = '"' := h .string
  have hDigit : ¬ c.isDigit = true := h .numeral
  have hName : ¬ isNameStart c = true := h .identifier
  have hMark : ¬ isPunctuation c = true := h .mark
  have hSymbol : ¬ isOperatorChar c = true := h .symbol
  unfold Lexeme.read
  rw [if_neg hQuote, if_neg hDigit, if_neg hName, if_neg hMark, if_neg hSymbol]

theorem string_front {body : List Char} (h : '"' :: body ++ ['"'] <+: '"' :: cs) :
    ∃ rest, cs = body ++ '"' :: rest := by
  obtain ⟨rest, hText⟩ := h
  refine ⟨rest, ?_⟩
  have hTail : body ++ ['"'] ++ rest = cs := (List.cons.inj hText).2
  rw [← hTail, List.append_assoc]
  rfl

/-- A closed string is the one string at the front of the text. -/
theorem read_string_means (hKind : (Lexeme.read '"' cs).kind = .ok kind) :
    WordClass.Means .string (Lexeme.read '"' cs).taken kind ∧
      ∀ word' kind', WordClass.Means .string word' kind' → word' <+: '"' :: cs →
        word'.length ≤ (Lexeme.read '"' cs).taken.length := by
  rw [read_string_eq] at hKind ⊢
  cases hSplit : splitString cs with
  | none =>
    rw [hSplit] at hKind
    cases hKind
  | some parts =>
    obtain ⟨body, rest⟩ := parts
    simp only [hSplit] at hKind ⊢
    obtain rfl := Except.ok.inj hKind
    refine ⟨.string (quotes_of_splitString hSplit), ?_⟩
    intro word' kind' hWord' hFront
    cases hWord' with
    | @string body' value' hBody' =>
      obtain ⟨rest', rfl⟩ := string_front hFront
      rw [hBody'.splitString_eq] at hSplit
      obtain ⟨rfl, -⟩ := Prod.mk.inj (Option.some.inj hSplit)
      exact Nat.le_refl _

/-- What is read is a word of the class that the first character opens, and no longer one stands at
the front of the text. -/
theorem read_means (hOpens : cls.Opens c) (hKind : (Lexeme.read c cs).kind = .ok kind) :
    cls.Means (Lexeme.read c cs).taken kind ∧ ∀ word' kind', cls.Means word' kind' →
      word' <+: c :: cs → word'.length ≤ (Lexeme.read c cs).taken.length := by
  -- a run of one character and more of a class is bounded by the run that was taken
  have hRun : ∀ {p : Char → Bool} {d : Char} {ds : List Char}, (∀ x ∈ ds, p x = true) →
      d :: ds <+: c :: cs → (d :: ds).length ≤ (c :: cs.takeWhile p).length := by
    intro p d ds hds hFront
    have hTail := length_le_takeWhile hds (List.cons_prefix_cons.mp hFront).2
    rw [List.length_cons, List.length_cons]
    omega
  cases cls with
  | string =>
    obtain rfl : c = '"' := hOpens
    exact read_string_means hKind
  | numeral =>
    rw [read_numeral_eq hOpens] at hKind ⊢
    obtain rfl := Except.ok.inj hKind
    refine ⟨numeral_means hOpens, ?_⟩
    intro word' kind' hWord' hFront
    cases hWord' with
    | whole _ hDigits =>
      exact (length_le_takeWhile hDigits hFront).trans (takeWhile_le_splitNumeral _)
    | fraction _ hDigits hMore => exact fraction_le_splitNumeral hDigits hMore hFront
  | identifier =>
    rw [read_identifier_eq hOpens] at hKind ⊢
    obtain rfl := Except.ok.inj hKind
    refine ⟨identifier_means hOpens fun d hd => List.mem_takeWhile_imp hd, ?_⟩
    intro word' kind' hWord' hFront
    cases hWord' with
    | keyword _ hParts _ => exact hRun hParts hFront
    | name _ hParts _ => exact hRun hParts hFront
  | mark =>
    rw [read_mark_eq hOpens] at hKind ⊢
    obtain rfl := Except.ok.inj hKind
    refine ⟨.mark hOpens, ?_⟩
    intro word' kind' hWord' _
    cases hWord'
    exact Nat.le_refl _
  | symbol =>
    rw [read_symbol_eq hOpens] at hKind ⊢
    obtain rfl := Except.ok.inj hKind
    refine ⟨.symbol hOpens fun d hd => List.mem_takeWhile_imp hd, ?_⟩
    intro word' kind' hWord' hFront
    cases hWord' with
    | symbol _ hRest => exact hRun hRest hFront

/-- A word that cannot be read is an open string. -/
theorem read_error {fault : LexFault} (hOpens : cls.Opens c)
    (hKind : (Lexeme.read c cs).kind = .error fault) :
    c = '"' ∧ cls = .string ∧ splitString cs = none := by
  cases cls with
  | string =>
    obtain rfl : c = '"' := hOpens
    refine ⟨rfl, rfl, ?_⟩
    rw [read_string_eq] at hKind
    cases hSplit : splitString cs with
    | none => rfl
    | some parts =>
      rw [hSplit] at hKind
      cases hKind
  | numeral =>
    rw [read_numeral_eq hOpens] at hKind
    cases hKind
  | identifier =>
    rw [read_identifier_eq hOpens] at hKind
    cases hKind
  | mark =>
    rw [read_mark_eq hOpens] at hKind
    cases hKind
  | symbol =>
    rw [read_symbol_eq hOpens] at hKind
    cases hKind

/-- **Reading takes the longest word**, and every longest word is what reading takes. -/
theorem longest_iff_read {word : List Char} : Longest (c :: cs) word kind ↔
    (Lexeme.read c cs).kind = .ok kind ∧ (Lexeme.read c cs).taken = word := by
  constructor
  · rintro ⟨cls, ⟨d, ds, hText, hOpens⟩, hMeans, hFront, hLongest⟩
    obtain ⟨rfl, rfl⟩ := List.cons.inj hText
    cases hKind : (Lexeme.read c cs).kind with
    | error fault =>
      -- an open string has no word at its front
      obtain ⟨rfl, rfl, hSplit⟩ := read_error hOpens hKind
      cases hMeans with
      | string hBody =>
        obtain ⟨rest, hRest⟩ := string_front hFront
        exact absurd hRest (splitString_eq_none_iff.mp hSplit _ _ _ hBody)
    | ok kind' =>
      obtain ⟨hTaken, hBound⟩ := read_means hOpens hKind
      have hPrefix : (Lexeme.read c cs).taken <+: c :: cs :=
        ⟨_, Lexeme.taken_append_rest c cs⟩
      -- two longest words at the front are the same word
      have hLength : (Lexeme.read c cs).taken.length = word.length :=
        Nat.le_antisymm (hLongest _ _ hTaken hPrefix) (hBound _ _ hMeans hFront)
      have hSame : (Lexeme.read c cs).taken = word :=
        (List.prefix_of_prefix_length_le hPrefix hFront (Nat.le_of_eq hLength)).eq_of_length hLength
      rw [hSame] at hTaken
      exact ⟨congrArg _ (hTaken.unique hMeans), hSame⟩
  · rintro ⟨hKind, rfl⟩
    by_cases hOpens : ∃ cls : WordClass, cls.Opens c
    · obtain ⟨cls, hOpens⟩ := hOpens
      obtain ⟨hTaken, hBound⟩ := read_means hOpens hKind
      exact ⟨cls, ⟨c, cs, rfl, hOpens⟩, hTaken, ⟨_, Lexeme.taken_append_rest c cs⟩, hBound⟩
    · rw [read_unopened fun cls h => hOpens ⟨cls, h⟩] at hKind
      cases hKind

end Reading

end Zaban
