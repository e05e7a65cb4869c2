import Mathlib
import Zaban.Syntax.Text
import Zaban.Proofs.Token.Spacing

/-!
# Trees whose text can be read

Not every tree is written in a way that can be read back: the text of a tree
does not show all of it. A tree is **legible** (`Node.Legible`) if what its
text shows is enough:

* each name is read as that name, and each number as an equal number;
* each string is written with no escapes but those of quotes and backslashes;
* a sequence has at least two expressions, since the braces of a shorter one
  vanish;
* a function or a conditional is not applied, and stands on the left of no
  operator, since its last part would take what follows;
* a branch with a second branch behind it does not **end open**, since the
  second branch would go to a conditional inside.

`Node.tokens` are the tokens that the text of a legible tree is read as
(`lexes_text`), word by word. The text stands for itself whatever follows, as
long as that does not continue its last word (`Lexes`).
-/

namespace Zaban

-- ----------------------------------------------------------------------------
-- Legible trees
-- ----------------------------------------------------------------------------

/-- The whole text is one word, and the word is read as `kind`. -/
def ReadsAs (text : String) (kind : TokenKind) : Prop :=
  ∃ p, (Cursor.ofText text).readToken = (.ok (some ⟨kind, .start⟩), ⟨[], p⟩)

namespace Node

/-- Does the last part of the tree reach as far as it can? -/
def isGreedy : Node → Bool
  | condition .. => true
  | lambda .. => true
  | _ => false

mutual

/-- Would a second branch behind the tree belong to a conditional at its end? -/
def endsOpen : Node → Bool
  | condition _ _ no => elseEndsOpen no
  | lambda _ body => endsOpen body
  | _ => false

/-- Does a conditional with this second branch end open? -/
def elseEndsOpen : Option Node → Bool
  | none => true
  | some no => endsOpen no

end

mutual

/-- The text of the tree shows all of it. -/
def Legible : Node → Prop
  | program body => 2 ≤ body.length ∧ AllLegible body
  | assignment target value => target.isGreedy = false ∧ Legible target ∧ Legible value
  | binary _ left right => left.isGreedy = false ∧ Legible left ∧ Legible right
  | condition test yes no =>
    Legible test ∧ Legible yes ∧ ElseLegible no ∧ (no.isSome → yes.endsOpen = false)
  | lambda params body => (∀ p ∈ params, ReadsAs p (.name p)) ∧ Legible body
  | call callee args => callee.isGreedy = false ∧ Legible callee ∧ AllLegible args
  | var name => ReadsAs name (.name name)
  | number value => ∃ y, ReadsAs (Layout.plain.write value) (.number y) ∧ (y == value) = true
  | string value => ∀ c ∈ value.toList, c = '"' ∨ c = '\\' ∨ Text.escapeChar '"' c = [c]
  | boolean _ => True

def AllLegible : List Node → Prop
  | [] => True
  | x :: xs => Legible x ∧ AllLegible xs

def ElseLegible : Option Node → Prop
  | none => True
  | some x => Legible x

end

end Node

-- ----------------------------------------------------------------------------
-- The tokens of a tree
-- ----------------------------------------------------------------------------

/-- A token of the kind, at the start of a text. -/
def TokenKind.token (kind : TokenKind) : Token := ⟨kind, .start⟩

/-- The punctuation character `c` as a token. -/
def mark (c : Char) : Token := (TokenKind.punctuation c).token

/-- Tokens in parentheses. -/
def parens (ts : List Token) : List Token := mark '(' :: (ts ++ [mark ')'])

namespace Node

mutual

/-- The tokens of the text of the tree. -/
def tokens : Node → List Token
  | program body => mark '{' :: (List.intercalate [mark ';'] (tokenLists body) ++ [mark '}'])
  | assignment target value =>
    parens (tokens target ++ (TokenKind.operator "=").token :: tokens value)
  | binary op left right =>
    parens (tokens left ++ (TokenKind.operator op.symbol).token :: tokens right)
  | condition test yes no =>
    (TokenKind.keyword .yeli).token ::
      (tokens test ++ (TokenKind.keyword .teli).token :: (tokens yes ++ elseTokens no))
  | lambda params body =>
    (TokenKind.keyword .banav).token ::
      (parens (List.intercalate [mark ','] (params.map fun p => [(TokenKind.name p).token])) ++
        tokens body)
  | call callee args => tokens callee ++ parens (List.intercalate [mark ','] (tokenLists args))
  | var name => [(TokenKind.name name).token]
  | number value => [(TokenKind.number value).token]
  | string value => [(TokenKind.string value).token]
  | boolean true => [(TokenKind.keyword .poz).token]
  | boolean false => [(TokenKind.keyword .apuz).token]

def tokenLists : List Node → List (List Token)
  | [] => []
  | x :: xs => tokens x :: tokenLists xs

/-- The tokens of the second branch of a conditional. -/
def elseTokens : Option Node → List Token
  | none => []
  | some x => (TokenKind.keyword .nate).token :: tokens x

end

end Node

-- ----------------------------------------------------------------------------
-- Texts and their tokens
-- ----------------------------------------------------------------------------

/-- The text is read as the tokens, whatever breaks it off. -/
def Lexes (text : List Char) (ts : List Token) : Prop :=
  ∀ rest, Breaks rest → reading (text ++ rest) = (reading rest).behind (ts.map Token.kind)

section Lexes

variable {text text' word : List Char} {ts ts' : List Token} {c : Char} {kind : TokenKind}

theorem breaks_space (text : List Char) : Breaks (' ' :: text) := by
  rintro c ⟨⟩
  exact (Blank.space rfl .nil : Blank [' ']).breaks ' ' rfl

theorem breaks_mark (hMark : isPunctuation c = true) (text : List Char) : Breaks (c :: text) := by
  have hNone : ∀ d ∈ [',', ';', '(', ')', '{', '}', '[', ']'], ¬ Continues d :=
    not_continues (by decide)
  rintro d ⟨⟩
  exact hNone c (List.contains_iff_mem.mp hMark)

theorem Breaks.append (h : Breaks text) (h' : Breaks text') : Breaks (text ++ text') := by
  cases text with
  | nil => exact h'
  | cons c cs => exact fun d hd => h d hd

theorem lexes_nil : Lexes [] [] := fun _ _ => rfl

theorem lexes_word {cls : WordClass} (h : cls.Means word kind) : Lexes word [kind.token] := by
  intro rest hBreaks
  refine reading_word (longest_append_iff.mpr ⟨cls, h, ?_⟩)
  intro c hc kind' hLonger
  exact hBreaks c hc (h.next hLonger).1

theorem Lexes.append (h : Lexes text ts) (h' : Lexes text' ts') (hBreaks : Breaks text') :
    Lexes (text ++ text') (ts ++ ts') := by
  intro rest hRest
  rw [List.append_assoc, h _ (hBreaks.append hRest), h' rest hRest]
  simp only [Reading.behind, List.map_append, List.append_assoc]

theorem Lexes.space (h : Lexes text ts) : Lexes (' ' :: text) ts := by
  intro rest hRest
  rw [← h rest hRest]
  exact reading_blank (.space rfl .nil : Blank [' ']) (text ++ rest)

theorem Lexes.mark (hMark : isPunctuation c = true) (h : Lexes text ts) :
    Lexes (c :: text) (mark c :: ts) := by
  intro rest hRest
  rw [List.cons_append, reading_mark hMark, h rest hRest]
  rfl

theorem Lexes.parens (h : Lexes text ts) : Lexes ('(' :: (text ++ [')'])) (parens ts) :=
  .mark rfl (h.append (.mark rfl lexes_nil) (breaks_mark rfl []))

/-- Texts with a punctuation character and a space between them. -/
theorem lexes_intercalate (hMark : isPunctuation c = true) {texts : List (List Char)}
    {tss : List (List Token)} (h : List.Forall₂ Lexes texts tss) :
    Lexes (List.intercalate [c, ' '] texts) (List.intercalate [Zaban.mark c] tss) := by
  induction h with
  | nil => exact lexes_nil
  | @cons text ts texts tss hFirst hRest ih =>
    cases hRest with
    | nil =>
      rw [List.intercalate_singleton, List.intercalate_singleton]
      exact hFirst
    | cons hNext hRest =>
      rw [List.intercalate_cons_cons, List.intercalate_cons_cons, List.append_assoc,
        List.append_assoc]
      exact hFirst.append (.mark hMark ih.space) (breaks_mark hMark _)

end Lexes

-- ----------------------------------------------------------------------------
-- The words of a tree
-- ----------------------------------------------------------------------------

/-- A text that is read as one word is a word. -/
theorem ReadsAs.means {text : String} {kind : TokenKind} (h : ReadsAs text kind) :
    ∃ cls : WordClass, cls.Means text.toList kind := by
  obtain ⟨p, hRead⟩ := h
  have hAll := splitTrivia_append false text.toList
  simp only [Cursor.readToken, Cursor.skipTrivia, Cursor.moved, Cursor.ofText] at hRead
  cases hTail : (splitTrivia false text.toList).2 with
  | nil => simp [hTail] at hRead
  | cons x xs =>
    rw [hTail] at hRead hAll
    cases hKind : (Lexeme.read x xs).kind with
    | error => simp [hKind] at hRead
    | ok kind' =>
      simp only [hKind, Prod.mk.injEq, Except.ok.injEq, Option.some.injEq, Token.mk.injEq,
        Cursor.mk.injEq] at hRead
      obtain ⟨⟨rfl, hStart⟩, hRest, -⟩ := hRead
      -- nothing stands before the word, and nothing behind it
      have hFront : (splitTrivia false text.toList).1 = [] := by
        by_contra hSome
        have hBefore := Position.start.before_after hSome
        rw [hStart] at hBefore
        exact Position.before_irrefl _ hBefore
      have hTaken := Lexeme.taken_append_rest x xs
      rw [hRest, List.append_nil] at hTaken
      rw [hFront, List.nil_append] at hAll
      obtain ⟨cls, -, hMeans, -⟩ := longest_iff_read.mpr ⟨hKind, hTaken⟩
      exact ⟨cls, hAll ▸ hMeans⟩

theorem keyword_means (k : Keyword) :
    WordClass.Means .identifier k.text.toList (.keyword k) := by
  cases k <;> exact .keyword (by decide) (List.all_eq_true.mp (by decide)) rfl

theorem symbol_means (op : BinaryOp) :
    WordClass.Means .symbol op.symbol.toList (.operator op.symbol) := by
  cases op <;> exact .symbol (by decide) (List.all_eq_true.mp (by decide))

/-- Only quotes and backslashes are escaped, and what is escaped is read. -/
theorem quotes_escaped {cs : List Char}
    (h : ∀ c ∈ cs, c = '"' ∨ c = '\\' ∨ Text.escapeChar '"' c = [c]) :
    Quotes (cs.flatMap (Text.escapeChar '"')) cs := by
  induction cs with
  | nil => exact .nil
  | cons c cs ih =>
    have hRest := ih fun d hd => h d (List.mem_cons_of_mem c hd)
    rw [List.flatMap_cons]
    by_cases hQuote : c = '"'
    · subst hQuote
      exact .escaped hRest
    · by_cases hEscape : c = '\\'
      · subst hEscape
        exact .escaped hRest
      · rcases h c List.mem_cons_self with hc | hc | hc
        · exact absurd hc hQuote
        · exact absurd hc hEscape
        · rw [hc]
          exact .plain hQuote hEscape hRest

theorem string_means {value : String}
    (h : ∀ c ∈ value.toList, c = '"' ∨ c = '\\' ∨ Text.escapeChar '"' c = [c]) :
    WordClass.Means .string (Text.quoted value).toList (.string value) := by
  have hMeans := WordClass.Means.string (quotes_escaped h)
  rw [String.ofList_toList] at hMeans
  rw [Text.quoted, String.toList_ofList]
  exact hMeans

theorem WordClass.Means.numeral {cls : WordClass} {word : List Char} {y : Float}
    (h : cls.Means word (.number y)) : cls = .numeral := by
  cases h <;> rfl

/-- A number that is read as an equal one is read as itself: a negative zero is written with a sign,
which is no part of a numeral. -/
theorem number_means {x y : Float} (h : ReadsAs (Layout.plain.write x) (.number y))
    (hEqual : (y == x) = true) :
    WordClass.Means .numeral (Layout.plain.write x).toList (.number x) := by
  obtain ⟨cls, hMeans⟩ := h.means
  obtain rfl := hMeans.numeral
  obtain ⟨-, -, hCases⟩ := Float.beq_iff_ne_nan_and_eq.mp hEqual
  rcases hCases with rfl | ⟨-, rfl⟩ | ⟨-, rfl⟩
  · exact hMeans
  · have hText : Layout.plain.write (-0) = "-0" := by decide +kernel
    rw [hText] at hMeans
    obtain ⟨c, cs, hWord, hOpens⟩ := hMeans.opens
    have hSign : '-' = c := (List.cons.inj hWord).1
    rw [← hSign] at hOpens
    exact absurd (show ('-').isDigit = true from hOpens) (by decide)
  · have hText : Layout.plain.write 0 = "0" := by decide +kernel
    have hValue : Numeral.value ['0'] = 0 := by decide +kernel
    rw [hText, ← hValue]
    exact .whole (List.cons_ne_nil '0' []) (List.forall_mem_singleton.mpr rfl)

-- ----------------------------------------------------------------------------
-- The text of a tree
-- ----------------------------------------------------------------------------

/-- An operator between two texts, in parentheses. -/
theorem lexes_operation {left right symbol : List Char} {ts us : List Token} {s : String}
    (hLeft : Lexes left ts) (hSymbol : WordClass.Means .symbol symbol (.operator s))
    (hRight : Lexes right us) :
    Lexes ('(' :: (left ++ ' ' :: (symbol ++ ' ' :: (right ++ [')']))))
      (parens (ts ++ (TokenKind.operator s).token :: us)) := by
  have hInner : Lexes (left ++ ' ' :: (symbol ++ ' ' :: right))
      (ts ++ ([(TokenKind.operator s).token] ++ us)) :=
    hLeft.append ((lexes_word hSymbol).append hRight.space (breaks_space _)).space (breaks_space _)
  simpa only [List.append_assoc, List.cons_append, List.nil_append] using hInner.parens

theorem lexes_params {params : List String} (h : ∀ p ∈ params, ReadsAs p (.name p)) :
    Lexes (Node.inParens params).toList
        (parens (List.intercalate [mark ','] (params.map fun p => [(TokenKind.name p).token]))) ∧
      Breaks (Node.inParens params).toList := by
  have hEach : List.Forall₂ Lexes (params.map String.toList)
      (params.map fun p => [(TokenKind.name p).token]) := by
    rw [List.forall₂_map_left_iff, List.forall₂_map_right_iff, List.forall₂_same]
    intro p hp
    obtain ⟨cls, hMeans⟩ := (h p hp).means
    exact lexes_word hMeans
  have hText : (Node.inParens params).toList =
      '(' :: (List.intercalate [',', ' '] (params.map String.toList) ++ [')']) := by
    simp [Node.inParens, String.toList_intercalate]
  rw [hText]
  exact ⟨(lexes_intercalate rfl hEach).parens, breaks_mark rfl _⟩

namespace Node

mutual

/-- **The text of a legible tree is read as the tokens of the tree.** -/
theorem lexes_text : ∀ n : Node, n.Legible → Lexes n.text.toList n.tokens
  | .program body, h => by
    have hText : (text (.program body)).toList =
        '{' :: (List.intercalate [';', ' '] ((texts body).map String.toList) ++ ['}']) := by
      simp [text, String.toList_intercalate]
    rw [hText, tokens]
    have hBody := lexes_intercalate (c := ';') rfl (lexes_texts body h.2)
    exact .mark rfl (hBody.append (.mark rfl lexes_nil) (breaks_mark rfl []))
  | .assignment target value, h => by
    have hSymbol : WordClass.Means .symbol ['='] (.operator "=") :=
      .symbol (c := '=') (by decide) (List.forall_mem_nil _)
    have hLexes := lexes_operation (lexes_text target h.2.1) hSymbol (lexes_text value h.2.2)
    simpa [text, tokens] using hLexes
  | .binary op left right, h => by
    have hLexes := lexes_operation (lexes_text left h.2.1) (symbol_means op)
      (lexes_text right h.2.2)
    simpa [text, tokens] using hLexes
  | .condition test yes no, h => by
    obtain ⟨hTest, hYes, hNo, -⟩ := h
    obtain ⟨hElse, hBreaks⟩ := lexes_elseText no hNo
    have hBranches := (lexes_word (keyword_means .teli)).append
      ((lexes_text yes hYes).append hElse hBreaks).space (breaks_space _)
    have hLexes := (lexes_word (keyword_means .yeli)).append
      ((lexes_text test hTest).append hBranches.space (breaks_space _)).space (breaks_space _)
    simpa [text, tokens] using hLexes
  | .lambda params body, h => by
    obtain ⟨hParams, hBreaks⟩ := lexes_params h.1
    have hLexes := (lexes_word (keyword_means .banav)).append
      (hParams.append (lexes_text body h.2).space (breaks_space _))
      (hBreaks.append (breaks_space _))
    simpa [text, tokens] using hLexes
  | .call callee args, h => by
    have hArgs := (lexes_intercalate (c := ',') rfl (lexes_texts args h.2.2)).parens
    have hLexes := (lexes_text callee h.2.1).append hArgs (breaks_mark rfl _)
    simpa [text, tokens, inParens, String.toList_intercalate] using hLexes
  | .var name, h => by
    obtain ⟨cls, hMeans⟩ := ReadsAs.means h
    exact lexes_word hMeans
  | .number value, h => by
    obtain ⟨y, hReads, hEqual⟩ := h
    exact lexes_word (number_means hReads hEqual)
  | .string value, h => lexes_word (string_means h)
  | .boolean true, _ => lexes_word (keyword_means .poz)
  | .boolean false, _ => lexes_word (keyword_means .apuz)

theorem lexes_texts : ∀ xs : List Node, AllLegible xs →
    List.Forall₂ Lexes ((texts xs).map String.toList) (tokenLists xs)
  | [], _ => .nil
  | x :: xs, h => .cons (lexes_text x h.1) (lexes_texts xs h.2)

theorem lexes_elseText : ∀ no : Option Node, ElseLegible no →
    Lexes (elseText no).toList (elseTokens no) ∧ Breaks (elseText no).toList
  | none, _ => ⟨lexes_nil, by rintro c ⟨⟩⟩
  | some x, h => by
    have hLexes := ((lexes_word (keyword_means .nate)).append (lexes_text x h).space
      (breaks_space _)).space
    have hText : (elseText (some x)).toList =
        ' ' :: (Keyword.nate.text.toList ++ ' ' :: x.text.toList) := by
      simp [elseText]
    rw [hText]
    exact ⟨hLexes, breaks_space _⟩

end

end Node

end Zaban
