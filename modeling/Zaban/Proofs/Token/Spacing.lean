import Zaban.Proofs.Token.Endings
import Zaban.Proofs.Token.Order

/-!
# Blank text between words

What the words of a text are does not depend on where they stand. The
**reading** of a text keeps the kinds of its tokens and the fault that ends
them, and forgets every position (`Scan.reading`).

A reading is determined from the front: skip blank text, read one word, go on
behind it (`reading_word`, `reading_blank`). A word is the longest at its place
exactly if the next character does not continue it (`longest_append_iff`), so
what stands behind a word matters only through one character, and a character
that continues no word may always stand there (`Breaks`). Two laws follow.

* `Decomposes.reading_insert` — blank text in front of a token changes no
  reading.
* `reading_append` — behind a text that was read without a fault, a text that
  breaks off the last word is read for itself, or as the rest of a comment.
-/

namespace Zaban

-- ----------------------------------------------------------------------------
-- Where words end
-- ----------------------------------------------------------------------------

/-- A word that is not closed may go on with `c`. -/
def Continues (c : Char) : Prop :=
  isNamePart c = true ∨ isOperatorChar c = true ∨ c = '.'

theorem not_continues {cs : List Char}
    (h : cs.all (fun c => !isNamePart c && !isOperatorChar c && c != '.') = true) :
    ∀ c ∈ cs, ¬ Continues c := by
  intro c hc
  have hNone := List.all_eq_true.mp h c hc
  simpa [Continues, and_assoc] using hNone

/-- No word in front of the text goes on into it. -/
def Breaks (text : List Char) : Prop :=
  ∀ c ∈ text.head?, ¬ Continues c

section Words

variable {cls : WordClass} {word text text' more : List Char} {c : Char} {kind kind' : TokenKind}

/-- A string ends at its first closing quote. -/
theorem string_not_continued (h : WordClass.string.Means word kind) :
    ¬ WordClass.string.Means (word ++ c :: more) kind' := by
  intro h'
  cases h with
  | @string body value hBody =>
    generalize hLonger : '"' :: body ++ ['"'] ++ c :: more = longer at h'
    cases h' with
    | @string body' value' hBody' =>
      have hText : body ++ '"' :: c :: more = body' ++ ['"'] := by
        rw [List.append_cons]
        exact (List.cons.inj hLonger).2
      have hSplit := hBody.splitString_eq (c :: more)
      rw [hText, hBody'.splitString_eq []] at hSplit
      cases (Prod.mk.inj (Option.some.inj hSplit)).2

/-- The front of a word is a word, unless it is an open string. -/
theorem WordClass.Means.front (hClass : cls ≠ .string) (h : cls.Means (word ++ more) kind)
    (hSome : word ≠ []) : ∃ kind', cls.Means word kind' := by
  generalize hWhole : word ++ more = whole at h
  cases h with
  | string => exact absurd rfl hClass
  | whole _ hDigits =>
    subst hWhole
    exact ⟨_, .whole hSome fun d hd => hDigits d (List.mem_append_left more hd)⟩
  | @fraction digits places hDigit hDigits hPlaces =>
    rcases List.append_eq_append_iff.mp hWhole with ⟨tail, rfl, -⟩ | ⟨tail, rfl, hTail⟩
    · exact ⟨_, .whole hSome fun d hd => hDigits d (List.mem_append_left tail hd)⟩
    · -- the front reaches the point
      cases tail with
      | nil =>
        rw [List.append_nil]
        exact ⟨_, .whole hDigit hDigits⟩
      | cons d tail =>
        obtain ⟨rfl, rfl⟩ := List.cons.inj hTail
        exact ⟨_, .fraction hDigit hDigits fun d hd => hPlaces d (List.mem_append_left more hd)⟩
  | @keyword d ds _ hStart hParts =>
    obtain ⟨e, es, rfl⟩ := List.exists_cons_of_ne_nil hSome
    obtain ⟨rfl, rfl⟩ := List.cons.inj hWhole
    exact ⟨_, identifier_means hStart fun x hx => hParts x (List.mem_append_left more hx)⟩
  | @name d ds hStart hParts =>
    obtain ⟨e, es, rfl⟩ := List.exists_cons_of_ne_nil hSome
    obtain ⟨rfl, rfl⟩ := List.cons.inj hWhole
    exact ⟨_, identifier_means hStart fun x hx => hParts x (List.mem_append_left more hx)⟩
  | mark hMark =>
    obtain ⟨e, es, rfl⟩ := List.exists_cons_of_ne_nil hSome
    obtain ⟨rfl, hEnd⟩ := List.cons.inj hWhole
    rw [(List.append_eq_nil_iff.mp hEnd).1]
    exact ⟨_, .mark hMark⟩
  | @symbol d ds hFirst hRest =>
    obtain ⟨e, es, rfl⟩ := List.exists_cons_of_ne_nil hSome
    obtain ⟨rfl, rfl⟩ := List.cons.inj hWhole
    exact ⟨_, .symbol hFirst fun x hx => hRest x (List.mem_append_left more hx)⟩

/-- Every character of a word but the first continues words, unless the word is a string. -/
theorem WordClass.Means.continues (hClass : cls ≠ .string) {d : Char} {ds : List Char}
    (h : cls.Means (d :: ds) kind) (hLater : c ∈ ds) : Continues c := by
  have hDigit : c.isDigit = true → Continues c := by
    intro hDigit
    refine Or.inl ?_
    simp only [isNamePart, hDigit, Bool.or_true, Bool.true_or]
  have hMem : c ∈ d :: ds := List.mem_cons_of_mem d hLater
  generalize hWord : d :: ds = word at h hMem
  cases h with
  | string => exact absurd rfl hClass
  | whole _ hDigits => exact hDigit (hDigits c hMem)
  | fraction _ hDigits hMore =>
    rcases List.mem_append.mp hMem with hc | hc
    · exact hDigit (hDigits c hc)
    · rcases List.mem_cons.mp hc with rfl | hc
      · exact Or.inr (Or.inr rfl)
      · exact hDigit (hMore c hc)
  | keyword _ hParts => exact Or.inl (hParts c ((List.cons.inj hWord).2 ▸ hLater))
  | name _ hParts => exact Or.inl (hParts c ((List.cons.inj hWord).2 ▸ hLater))
  | mark =>
    rw [(List.cons.inj hWord).2] at hLater
    exact absurd hLater List.not_mem_nil
  | symbol _ hRest => exact Or.inr (Or.inl (hRest c ((List.cons.inj hWord).2 ▸ hLater)))

/-- A word that goes on goes on with the next character, and that character continues words. -/
theorem WordClass.Means.next (h : cls.Means word kind) (h' : cls.Means (word ++ c :: more) kind') :
    Continues c ∧ ∃ kind'', cls.Means (word ++ [c]) kind'' := by
  by_cases hClass : cls = .string
  · subst hClass
    exact absurd h' (string_not_continued h)
  · obtain ⟨d, ds, rfl, -⟩ := h.opens
    have hNext : c ∈ ds ++ c :: more := List.mem_append_right ds List.mem_cons_self
    refine ⟨h'.continues hClass hNext, ?_⟩
    rw [List.append_cons] at h'
    exact h'.front hClass (List.cons_ne_nil d _)

/-- **A word is the longest at its place iff the next character does not make it longer.** -/
theorem longest_append_iff : Longest (word ++ text) word kind ↔
    ∃ cls : WordClass, cls.Means word kind ∧
      ∀ c ∈ text.head?, ∀ kind', ¬ cls.Means (word ++ [c]) kind' := by
  constructor
  · rintro ⟨cls, -, hMeans, -, hLongest⟩
    refine ⟨cls, hMeans, ?_⟩
    intro c hc kind' hLonger
    obtain ⟨more, rfl⟩ := List.head?_eq_some_iff.mp hc
    have hFront : word ++ [c] <+: word ++ c :: more := ⟨more, by simp⟩
    have hLength := hLongest _ kind' hLonger hFront
    rw [List.length_append, List.length_singleton] at hLength
    omega
  · rintro ⟨cls, hMeans, hStops⟩
    obtain ⟨d, ds, hWord, hOpens⟩ := hMeans.opens
    refine ⟨cls, ⟨d, ds ++ text, by rw [hWord]; rfl, hOpens⟩, hMeans, ⟨text, rfl⟩, ?_⟩
    intro word' kind' hMeans' hFront
    by_contra hLonger
    -- a longer word goes on with the next character
    obtain ⟨more, rfl⟩ : word <+: word' :=
      List.prefix_of_prefix_length_le ⟨text, rfl⟩ hFront (by omega)
    cases more with
    | nil => simp at hLonger
    | cons c more =>
      obtain ⟨rest, hText⟩ := hFront
      rw [List.append_assoc] at hText
      have hHead : c ∈ text.head? := by
        rw [← List.append_cancel_left hText]
        rfl
      obtain ⟨-, kind'', hNext⟩ := hMeans.next hMeans'
      exact hStops c hHead kind'' hNext

/-- What stands behind a word may change, if its first character stays or continues no word. -/
theorem Longest.change (h : Longest (word ++ text) word kind)
    (hText : text'.head? = text.head? ∨ Breaks text') : Longest (word ++ text') word kind := by
  obtain ⟨cls, hMeans, hStops⟩ := longest_append_iff.mp h
  refine longest_append_iff.mpr ⟨cls, hMeans, ?_⟩
  intro c hc kind' hLonger
  rcases hText with hHead | hBreaks
  · exact hStops c (hHead ▸ hc) kind' hLonger
  · exact hBreaks c hc (hMeans.next hLonger).1

end Words

-- ----------------------------------------------------------------------------
-- Blank text
-- ----------------------------------------------------------------------------

theorem Blank.breaks {w : List Char} (h : Blank w) : Breaks w := by
  have hNone : ∀ c ∈ [' ', '\t', '\n', '\r', '#'], ¬ Continues c := not_continues (by decide)
  cases h with
  | nil => rintro c ⟨⟩
  | @space c cs hSpace =>
    rintro d ⟨⟩
    have hMem : c ∈ [' ', '\t', '\n', '\r'] := List.contains_iff_mem.mp hSpace
    exact hNone c (List.mem_append_left ['#'] hMem)
  | comment =>
    rintro d ⟨⟩
    exact hNone '#' (by decide)

/-- Blank text is skipped inside a comment as well: its first line feed ends the comment. -/
theorem Blank.splitTrivia_snd {w : List Char} (h : Blank w) (inComment : Bool) :
    (splitTrivia inComment w).2 = [] := by
  have hOutside : ∀ {v : List Char}, Blank v → (splitTrivia false v).2 = [] := fun hBlank =>
    BlankToEnd.splitTrivia_snd (Or.inl hBlank)
  cases inComment with
  | false => exact hOutside h
  | true =>
    induction h with
    | nil => rfl
    | @space c cs hSpace hRest ih =>
      by_cases hLine : c = '\n'
      · subst hLine
        exact hOutside hRest
      · have hGoesOn : (c != '\n') = true := by simpa using hLine
        rw [splitTrivia, hGoesOn]
        exact ih
    | @comment body cs hLine hRest =>
      have hBody : '\n' ∉ '#' :: body := by simp [hLine]
      rw [splitTrivia_comment hBody]
      exact hOutside hRest

/-- Behind trivia that reaches to the end of a text, reading goes on in a comment or outside. -/
theorem splitTrivia_append_snd {b : Bool} {r : List Char} (h : (splitTrivia b r).2 = []) :
    ∃ b', ∀ us, (splitTrivia b (r ++ us)).2 = (splitTrivia b' us).2 := by
  induction r generalizing b with
  | nil => exact ⟨b, fun _ => rfl⟩
  | cons c r ih =>
    cases b with
    | true =>
      obtain ⟨b', hAll⟩ := ih (b := c != '\n') h
      exact ⟨b', hAll⟩
    | false =>
      rw [splitTrivia] at h
      split at h
      · rename_i hTrivia
        obtain ⟨b', hAll⟩ := ih h
        refine ⟨b', fun us => ?_⟩
        rw [List.cons_append, splitTrivia, if_pos hTrivia]
        exact hAll us
      · cases h

/-- Behind trivia stands no trivia. -/
theorem splitTrivia_snd_idem (b : Bool) (text : List Char) :
    (splitTrivia false (splitTrivia b text).2).2 = (splitTrivia b text).2 := by
  induction text generalizing b with
  | nil => cases b <;> rfl
  | cons c text ih =>
    cases b with
    | true => exact ih (c != '\n')
    | false =>
      rw [splitTrivia]
      split
      · exact ih (c == '#')
      · rename_i hOther
        rw [splitTrivia, if_neg hOther]

-- ----------------------------------------------------------------------------
-- Readings
-- ----------------------------------------------------------------------------

/-- The fault that ended the tokens, if one did. -/
def Ending.fault? : Ending → Option LexFault
  | finished _ => none
  | failed error => some error.fault

/-- The kinds of the tokens of a text and the fault that ends them, wherever they stand. -/
abbrev Reading := List TokenKind × Option LexFault

def Scan.reading (s : Scan) : Reading :=
  (s.tokens.map Token.kind, s.ending.fault?)

/-- The reading with tokens of the given kinds before it. -/
def Reading.behind (r : Reading) (kinds : List TokenKind) : Reading :=
  (kinds ++ r.1, r.2)

/-- How some characters are read at the start of a text. -/
def reading (text : List Char) : Reading :=
  (scanFrom (text.length + 1) ⟨text, .start⟩).reading

/-- Skips blank text, reads one word, and goes on behind it with `next`. -/
def readingStep (next : List Char → Reading) (text : List Char) : Reading :=
  match (splitTrivia false text).2 with
  | [] => ([], none)
  | x :: xs =>
    match (Lexeme.read x xs).kind with
    | .ok kind => (next (Lexeme.read x xs).rest).behind [kind]
    | .error fault => ([], some fault)

section Readings

variable {w word text us : List Char} {kind : TokenKind}

/-- A word takes a character, so what is read behind it is shorter. -/
theorem readingStep_congr {next next' : List Char → Reading}
    (h : ∀ rest, rest.length < text.length → next rest = next' rest) :
    readingStep next text = readingStep next' text := by
  have hAll := congrArg List.length (splitTrivia_append false text)
  unfold readingStep
  cases hTail : (splitTrivia false text).2 with
  | nil => rfl
  | cons x xs =>
    cases hKind : (Lexeme.read x xs).kind with
    | error => simp only [hKind]
    | ok kind =>
      have hTaken := List.length_pos_iff.mpr (longest_iff_read.mpr ⟨hKind, rfl⟩).ne_nil
      have hRest := congrArg List.length (Lexeme.taken_append_rest x xs)
      rw [hTail, List.length_append] at hAll
      rw [List.length_append] at hRest
      simp only [hKind, h (Lexeme.read x xs).rest (by omega)]

/-- One step of a scan, seen without positions. -/
theorem scanFrom_succ_reading (fuel : Nat) (text : List Char) (p : Position) :
    ∃ q, (scanFrom (fuel + 1) ⟨text, p⟩).reading =
      readingStep (fun rest => (scanFrom fuel ⟨rest, q⟩).reading) text := by
  unfold readingStep
  cases hTail : (splitTrivia false text).2 with
  | nil =>
    refine ⟨p, ?_⟩
    simp only [scanFrom, Cursor.readToken, Cursor.skipTrivia, Cursor.moved, hTail]
    rfl
  | cons x xs =>
    refine ⟨(p.after (splitTrivia false text).1).after (Lexeme.read x xs).taken, ?_⟩
    simp only [scanFrom, Cursor.readToken, Cursor.skipTrivia, Cursor.moved, hTail]
    cases (Lexeme.read x xs).kind <;> rfl

/-- With enough fuel, and at every position, the reading is that of the characters alone. -/
theorem scanFrom_reading_eq {fuel fuel' : Nat} (p p' : Position) (hFuel : text.length < fuel)
    (hFuel' : text.length < fuel') :
    (scanFrom fuel ⟨text, p⟩).reading = (scanFrom fuel' ⟨text, p'⟩).reading := by
  induction fuel generalizing fuel' text p p' with
  | zero => omega
  | succ fuel ih =>
    obtain ⟨fuel', rfl⟩ := Nat.exists_eq_add_one_of_ne_zero (Nat.ne_zero_of_lt hFuel')
    obtain ⟨q, hStep⟩ := scanFrom_succ_reading fuel text p
    obtain ⟨q', hStep'⟩ := scanFrom_succ_reading fuel' text p'
    rw [hStep, hStep']
    refine readingStep_congr fun rest hShorter => ?_
    exact ih q q' (by omega) (by omega)

/-- **A text is read one word at a time.** -/
theorem reading_eq (text : List Char) : reading text = readingStep reading text := by
  obtain ⟨q, hStep⟩ := scanFrom_succ_reading text.length text .start
  rw [reading, hStep]
  refine readingStep_congr fun rest hShorter => ?_
  exact scanFrom_reading_eq q .start hShorter (Nat.lt_succ_self _)

theorem scan_reading (source : String) : (scan source).reading = reading source.toList := rfl

theorem reading_congr {text' : List Char}
    (h : (splitTrivia false text).2 = (splitTrivia false text').2) :
    reading text = reading text' := by
  rw [reading_eq, reading_eq text', readingStep, h]
  rfl

theorem reading_of_trivia (h : (splitTrivia false text).2 = []) : reading text = ([], none) := by
  rw [reading_eq, readingStep, h]

theorem reading_blank (hBlank : Blank w) (text : List Char) :
    reading (w ++ text) = reading text :=
  reading_congr (by rw [splitTrivia_blank hBlank])

theorem reading_word (h : Longest (word ++ text) word kind) :
    reading (word ++ text) = (reading text).behind [kind] := by
  obtain ⟨cls, ⟨c, cs, hText, hOpens⟩, -⟩ := id h
  obtain ⟨hSpace, hHash⟩ := hOpens.not_blank
  rw [hText] at h ⊢
  obtain ⟨hKind, hTaken⟩ := longest_iff_read.mp h
  have hAll := Lexeme.taken_append_rest c cs
  rw [hTaken, ← hText] at hAll
  rw [reading_eq, readingStep, splitTrivia_stop hSpace hHash]
  simp only [hKind, List.append_cancel_left hAll]

/-- A punctuation character is a word whatever follows it. -/
theorem reading_mark {c : Char} (hMark : isPunctuation c = true) (text : List Char) :
    reading (c :: text) = (reading text).behind [.punctuation c] := by
  have hWord : Longest ([c] ++ text) [c] (.punctuation c) := by
    refine longest_append_iff.mpr ⟨.mark, .mark hMark, ?_⟩
    rintro d - kind' ⟨⟩
  exact reading_word hWord

/-- A text without a fault is trivia, or begins with a word behind blank text. -/
theorem reading_cases (h : (reading text).2 = none) :
    (splitTrivia false text).2 = [] ∨ ∃ w word tail kind, Blank w ∧
      text = w ++ (word ++ tail) ∧ Longest (word ++ tail) word kind := by
  obtain ⟨w, rest, hBlank, rfl, hRest⟩ := exists_blank text
  rcases hRest with rfl | ⟨body, hLine, rfl⟩ | ⟨c, cs, rfl, hSpace, hHash⟩
  · rw [List.append_nil]
    exact Or.inl (hBlank.splitTrivia_snd false)
  · exact Or.inl (BlankToEnd.splitTrivia_snd (Or.inr ⟨w, body, hBlank, hLine, rfl⟩))
  · rw [reading_blank hBlank, reading_eq, readingStep, splitTrivia_stop hSpace hHash] at h
    cases hKind : (Lexeme.read c cs).kind with
    | error => simp [hKind] at h
    | ok kind =>
      have hText := Lexeme.taken_append_rest c cs
      refine Or.inr ⟨w, (Lexeme.read c cs).taken, (Lexeme.read c cs).rest, kind, hBlank, ?_, ?_⟩
      · rw [hText]
      · rw [hText]
        exact longest_iff_read.mpr ⟨hKind, rfl⟩

/-- **Behind a text without a fault** the next text is read for itself, if it breaks off the last
word; only an open comment goes on into it. -/
theorem reading_append (h : (reading text).2 = none) : ∃ inComment, ∀ us, Breaks us →
    reading (text ++ us) = (reading (splitTrivia inComment us).2).behind (reading text).1 := by
  induction hSize : text.length using Nat.strongRecOn generalizing text with
  | ind size ih =>
    rcases reading_cases h with hTrivia | ⟨w, word, tail, kind, hBlank, rfl, hWord⟩
    · obtain ⟨b, hAll⟩ := splitTrivia_append_snd hTrivia
      refine ⟨b, fun us _ => ?_⟩
      rw [reading_of_trivia hTrivia]
      show _ = reading (splitTrivia b us).2
      refine reading_congr ?_
      rw [hAll us, splitTrivia_snd_idem]
    · rw [reading_blank hBlank, reading_word hWord] at h ⊢
      have hShorter : tail.length < size := by
        have hTaken := List.length_pos_iff.mpr hWord.ne_nil
        rw [← hSize, List.length_append, List.length_append]
        omega
      obtain ⟨b, hAll⟩ := ih tail.length hShorter h rfl
      refine ⟨b, fun us hBreaks => ?_⟩
      have hChanged : Longest (word ++ (tail ++ us)) word kind := by
        refine hWord.change ?_
        cases tail with
        | nil => exact Or.inr hBreaks
        | cons => exact Or.inl rfl
      rw [List.append_assoc, List.append_assoc, reading_blank hBlank, reading_word hChanged,
        hAll us hBreaks]
      rfl

theorem reading_newline (h : (reading text).2 = none) (us : List Char) :
    reading (text ++ '\n' :: us) = (reading us).behind (reading text).1 := by
  have hBreaks : Breaks ('\n' :: us) := by
    rintro c ⟨⟩
    exact (Blank.space rfl .nil : Blank ['\n']).breaks '\n' rfl
  obtain ⟨b, hAll⟩ := reading_append h
  have hOutside : (splitTrivia b ('\n' :: us)).2 = (splitTrivia false us).2 := by
    cases b <;> rfl
  rw [hAll _ hBreaks, hOutside, reading_congr (splitTrivia_snd_idem false us)]

/-- Blank text at the end changes no reading without a fault. -/
theorem reading_append_blank (h : (reading text).2 = none) (hBlank : Blank w) :
    reading (text ++ w) = reading text := by
  obtain ⟨b, hAll⟩ := reading_append h
  rw [hAll w hBlank.breaks, hBlank.splitTrivia_snd b]
  refine Prod.ext ?_ h.symm
  exact List.append_nil _

/-- **Blank text in front of a token changes no reading.** The tokens are those of a decomposition,
so the place of each of them is known by the characters in front of it. -/
theorem Decomposes.reading_insert {before past rest : List Char} {ts : List Token} {t : Token}
    (h : Decomposes before text ts past rest) (ht : t ∈ ts) :
    ∃ front back, text = front ++ back ∧ t.position = .behind (before ++ front) ∧
      ∀ w, Blank w → reading (front ++ (w ++ back)) = reading (front ++ back) := by
  induction h with
  | done => exact absurd ht List.not_mem_nil
  | @word before blank word text past rest kind ts hBlank hWord hRest ih =>
    rcases List.mem_cons.mp ht with rfl | ht
    · refine ⟨blank, word ++ text, by rw [List.append_assoc], rfl, ?_⟩
      intro w hInserted
      rw [reading_blank hBlank, reading_blank hInserted, reading_blank hBlank]
    · obtain ⟨front, back, rfl, hPosition, hSame⟩ := ih ht
      refine ⟨blank ++ word ++ front, back, by simp only [List.append_assoc], ?_, ?_⟩
      · rw [hPosition]
        simp only [List.append_assoc]
      · intro w hInserted
        -- the word is as long as before, whether or not the blank text stands right behind it
        have hChanged : Longest (word ++ (front ++ (w ++ back))) word kind := by
          refine hWord.change ?_
          cases front with
          | cons => exact Or.inl rfl
          | nil =>
            cases w with
            | nil => exact Or.inl rfl
            | cons c w => exact Or.inr fun d hd => hInserted.breaks d hd
        simp only [List.append_assoc]
        rw [reading_blank hBlank, reading_word hChanged, reading_blank hBlank, reading_word hWord,
          hSame w hInserted]

end Readings

-- ----------------------------------------------------------------------------
-- Iterating
-- ----------------------------------------------------------------------------

/-- Two places of one text with the same position are the same place. -/
theorem Position.behind_injective {front back front' back' : List Char}
    (hText : front ++ back = front' ++ back')
    (hPosition : Position.behind front = .behind front') : front = front' := by
  have hShorter : ∀ {cs ds : List Char}, Position.behind (cs ++ ds) = .behind cs → ds = [] := by
    intro cs ds hSame
    by_contra hSome
    have hBefore := (Position.behind cs).before_after hSome
    rw [Position.after_behind, hSame] at hBefore
    exact Position.before_irrefl _ hBefore
  rcases List.append_eq_append_iff.mp hText with ⟨more, rfl, -⟩ | ⟨more, rfl, -⟩
  · rw [hShorter hPosition.symm, List.append_nil]
  · rw [hShorter hPosition, List.append_nil]

/-- An iteration yields what a scan finds. -/
theorem iterateAll_reading (source : String) :
    ((Lexer.ofText source).iterateAll.1.map Token.kind,
      (Lexer.ofText source).iterateAll.2.1.map LexError.fault) = reading source.toList := by
  rw [← scan_reading, scan_eq_iterateAll]
  cases (Lexer.ofText source).iterateAll.2.1 <;> rfl

/-- The tokens of an iteration are those of the one decomposition of the text. -/
theorem iterateAll_decomposes (source : String) : ∃ past rest,
    Decomposes [] source.toList (Lexer.ofText source).iterateAll.1 past rest := by
  obtain ⟨past, rest, hText, -⟩ := iterateAll_ends source
  exact ⟨past, rest, hText⟩

end Zaban
