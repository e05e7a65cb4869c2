import Zaban.Proofs.Grammar.Climbing
import Zaban.Proofs.Grammar.Recognition
import Zaban.Proofs.Number.Decoding
import Zaban.Proofs.Syntax.Legible

/-!
# The trees that texts have

Not every tree is that of a text. A block of one expression is that expression,
and an empty block is the false literal, so a sequence inside a program has two
expressions at least. What stands for a name is read as a name, and a number
has no sign. A tree with these properties is **producible** (`Node.Producible`).

The tree of a text is a program of producible trees, since every rule of the
grammar makes producible trees of producible parts and of tokens
(`Node.producible_rules`), and the words of a text are names and numerals
(`wellSpelled_of_mem_scan`).

There is no other condition. To find a text for a tree, all of its parts are
put into parentheses or braces, which makes operands of them that end with
their last token (`Ordered.Closed`), and these can stand everywhere. Characters
of strings are all escaped. Each form of tree has a lemma that writes it so
(`Written`), and `exists_parse_iff` puts both directions together.
-/

namespace Zaban

open Grammar

-- ----------------------------------------------------------------------------
-- Trees
-- ----------------------------------------------------------------------------

/-- The lexer reads the text as one identifier, which is no keyword. -/
def IsName (text : String) : Prop :=
  ReadsAs text (.name text) ∧ ∀ k : Keyword, text ≠ k.text

/-- The number is the value of a numeral: of digits, or of digits with a point behind them and any
number of digits behind the point. -/
def IsNumeral (x : Float) : Prop :=
  ∃ whole more : List Char, whole ≠ [] ∧ (∀ c ∈ whole, c.isDigit = true) ∧
    (∀ c ∈ more, c.isDigit = true) ∧
    (x = Numeral.value whole ∨ x = Numeral.value (whole ++ '.' :: more))

namespace Node

mutual

/-- The tree can stand in the program of a text: a sequence has two expressions at least, what
stands for a name is one, and the numbers are of the given kind. -/
def Producible (numeric : Float → Prop) : Node → Prop
  | program body => 2 ≤ body.length ∧ AllProducible numeric body
  | assignment target value => Producible numeric target ∧ Producible numeric value
  | binary _ left right => Producible numeric left ∧ Producible numeric right
  | condition test yes no =>
    Producible numeric test ∧ Producible numeric yes ∧ ElseProducible numeric no
  | lambda params body => (∀ p ∈ params, IsName p) ∧ Producible numeric body
  | call callee args => Producible numeric callee ∧ AllProducible numeric args
  | var name => IsName name
  | number value => numeric value
  | string _ | boolean _ => True

def AllProducible (numeric : Float → Prop) : List Node → Prop
  | [] => True
  | x :: xs => Producible numeric x ∧ AllProducible numeric xs

def ElseProducible (numeric : Float → Prop) : Option Node → Prop
  | none => True
  | some x => Producible numeric x

end

end Node

-- ----------------------------------------------------------------------------
-- Words
-- ----------------------------------------------------------------------------

/-- A word by itself is read as a word. -/
theorem WordClass.Means.readsAs {cls : WordClass} {word : List Char} {kind : TokenKind}
    (h : cls.Means word kind) : ReadsAs (String.ofList word) kind := by
  have hLongest : Longest (word ++ []) word kind :=
    longest_append_iff.mpr ⟨cls, h, by rintro c ⟨⟩⟩
  have hRead := readToken_word [] .nil hLongest
  rw [List.nil_append, List.append_nil] at hRead
  refine ⟨.behind word, ?_⟩
  rw [Cursor.ofText, String.toList_ofList]
  exact hRead

theorem WordClass.Means.isName {cls : WordClass} {word : List Char} {name : String}
    (h : cls.Means word (.name name)) : IsName name := by
  have hReads := h.readsAs
  cases h with
  | name _ _ hFree => exact ⟨hReads, hFree⟩

theorem WordClass.Means.isNumeral {cls : WordClass} {word : List Char} {x : Float}
    (h : cls.Means word (.number x)) : IsNumeral x := by
  cases h with
  | whole hSome hDigits =>
    exact ⟨_, [], hSome, hDigits, List.forall_mem_nil _, Or.inl rfl⟩
  | fraction hSome hDigits hMore => exact ⟨_, _, hSome, hDigits, hMore, Or.inr rfl⟩

theorem IsNumeral.exists_means {x : Float} (h : IsNumeral x) :
    ∃ word, WordClass.Means .numeral word (.number x) := by
  obtain ⟨whole, more, hSome, hDigits, hMore, rfl | rfl⟩ := h
  · exact ⟨_, .whole hSome hDigits⟩
  · exact ⟨_, .fraction hSome hDigits hMore⟩

/-- **The value of a numeral** is a number nearest to what a numeral denotes, and there is no other
condition on it. -/
theorem isNumeral_iff {x : Float} : IsNumeral x ↔
    ∃ n : DecimalNumeral, n.sign = .none ∧ n.power = none ∧
      Binary.IsNearest n.value (Binary.ofFloat x) := by
  constructor
  · intro h
    obtain ⟨word, hMeans⟩ := h.exists_means
    obtain ⟨n, hSign, hPower, -, hNearest⟩ := WordClass.means_numeral_iff.mp hMeans
    exact ⟨n, hSign, hPower, hNearest⟩
  · rintro ⟨n, hSign, hPower, hNearest⟩
    have hMeans : WordClass.Means .numeral n.chars (.number x) :=
      WordClass.means_numeral_iff.mpr ⟨n, hSign, hPower, Or.inl rfl, hNearest⟩
    exact hMeans.isNumeral

theorem IsNumeral.signless {x : Float} (h : IsNumeral x) : Signless x := by
  obtain ⟨n, -, -, hNearest⟩ := isNumeral_iff.mp h
  exact hNearest.signless

/-- A name in a token is one, and a number is the value of a numeral. -/
def Token.WellSpelled (t : Token) : Prop :=
  (∀ name, t.kind = .name name → IsName name) ∧ ∀ x, t.kind = .number x → IsNumeral x

theorem Decomposes.wellSpelled {before text past rest : List Char} {ts : List Token}
    (h : Decomposes before text ts past rest) : ∀ t ∈ ts, t.WellSpelled := by
  induction h with
  | done => exact List.forall_mem_nil _
  | @word _ _ word _ _ _ kind _ _ hWord _ ih =>
    obtain ⟨cls, -, hMeans, -⟩ := hWord
    refine List.forall_mem_cons.mpr ⟨⟨?_, ?_⟩, ih⟩
    · rintro name rfl
      exact hMeans.isName
    · rintro x rfl
      exact hMeans.isNumeral

theorem wellSpelled_of_mem_scan {source : String} : ∀ t ∈ (scan source).tokens, t.WellSpelled := by
  obtain ⟨past, rest, hText, -⟩ := iterateAll_ends source
  rw [scan_eq_iterateAll source]
  exact hText.wellSpelled

-- ----------------------------------------------------------------------------
-- The tree of a text
-- ----------------------------------------------------------------------------

namespace Node

variable {numeric numeric' : Float → Prop}

theorem allProducible_iff {xs : List Node} :
    AllProducible numeric xs ↔ ∀ x ∈ xs, x.Producible numeric := by
  induction xs with
  | nil => simp [AllProducible]
  | cons x xs ih => rw [AllProducible, ih, List.forall_mem_cons]

mutual

theorem Producible.mono (hImp : ∀ x, numeric x → numeric' x) :
    ∀ {n : Node}, n.Producible numeric → n.Producible numeric'
  | .program _, h => ⟨h.1, AllProducible.mono hImp h.2⟩
  | .assignment .., h | .binary .., h => ⟨h.1.mono hImp, h.2.mono hImp⟩
  | .condition .., h => ⟨h.1.mono hImp, h.2.1.mono hImp, ElseProducible.mono hImp h.2.2⟩
  | .lambda .., h => ⟨h.1, h.2.mono hImp⟩
  | .call .., h => ⟨h.1.mono hImp, AllProducible.mono hImp h.2⟩
  | .var _, h => h
  | .number value, h => hImp value h
  | .string _, _ | .boolean _, _ => trivial

theorem AllProducible.mono (hImp : ∀ x, numeric x → numeric' x) :
    ∀ {xs : List Node}, AllProducible numeric xs → AllProducible numeric' xs
  | [], _ => trivial
  | _ :: _, h => ⟨h.1.mono hImp, AllProducible.mono hImp h.2⟩

theorem ElseProducible.mono (hImp : ∀ x, numeric x → numeric' x) :
    ∀ {no : Option Node}, ElseProducible numeric no → ElseProducible numeric' no
  | none, _ => trivial
  | some _, h => Producible.mono hImp h

end

theorem producible_blockNode {body : List Node} (h : ∀ x ∈ body, x.Producible numeric) :
    (blockNode body).Producible numeric :=
  match body, h with
  | [], _ => trivial
  | [_], h => h _ List.mem_cons_self
  | _ :: _ :: xs, h => ⟨Nat.le_add_left 2 xs.length, allProducible_iff.mpr h⟩

theorem producible_leaf {t : Token} {n : Node} (hWord : t.WellSpelled) (h : t.leaf? = some n) :
    n.Producible IsNumeral := by
  unfold Token.leaf? at h
  split at h
  · obtain rfl := Option.some.inj h
    trivial
  · obtain rfl := Option.some.inj h
    trivial
  · obtain rfl := Option.some.inj h
    exact hWord.1 _ ‹_›
  · obtain rfl := Option.some.inj h
    exact hWord.2 _ ‹_›
  · obtain rfl := Option.some.inj h
    trivial
  · cases h

end Node

section Rules

variable {ts us : List Token} {t : Token} {first n : Node}

/-- If the tokens are those of a text, the tree is producible. -/
def Produces (ts : List Token) (n : Node) : Prop :=
  (∀ t ∈ ts, t.WellSpelled) → n.Producible IsNumeral

theorem Grammar.Grouping.producible {numeric : Float → Prop} {xs : List (ChainOp × Node)}
    (h : Grouping first xs n) (hFirst : first.Producible numeric)
    (hRest : ∀ x ∈ xs, x.2.Producible numeric) : n.Producible numeric := by
  induction h with
  | operand n => exact hFirst
  | @join a b l r op xs ys _ _ ihLeft ihRight =>
    obtain ⟨hLeft, hRight⟩ := List.forall_mem_append.mp hRest
    obtain ⟨hNext, hRight⟩ := List.forall_mem_cons.mp hRight
    have hBoth : l.Producible numeric ∧ r.Producible numeric :=
      ⟨ihLeft hFirst hLeft, ihRight hNext hRight⟩
    cases op with
    | assign => exact hBoth
    | compute op => exact hBoth

theorem Grammar.Tail.producible {xs : List (ChainOp × Node)}
    (h : Tail (Both Operand Produces) ts xs) (hWords : ∀ t ∈ ts, t.WellSpelled) :
    ∀ x ∈ xs, x.2.Producible IsNumeral := by
  induction h with
  | nil => exact List.forall_mem_nil _
  | cons _ hOperand _ ih =>
    obtain ⟨hFirst, hRest⟩ := List.forall_mem_append.mp hWords
    obtain ⟨-, hFirst⟩ := List.forall_mem_cons.mp hFirst
    exact List.forall_mem_cons.mpr ⟨hOperand.2 hFirst, ih hRest⟩

/-- What items that are spelled well have in common, all items of a list have. -/
theorem Grammar.Listed.forall_mem {α : Type} {item : List Token → α → Prop} {separator : Char}
    {as : List α} {P : α → Prop} (h : Listed item separator ts as)
    (hItem : ∀ ts a, item ts a → (∀ t ∈ ts, t.WellSpelled) → P a)
    (hWords : ∀ t ∈ ts, t.WellSpelled) : ∀ a ∈ as, P a := by
  induction h with
  | nil => exact List.forall_mem_nil _
  | last hOne => exact List.forall_mem_singleton.mpr (hItem _ _ hOne hWords)
  | cons hOne _ _ ih =>
    obtain ⟨hFirst, hRest⟩ := List.forall_mem_append.mp hWords
    obtain ⟨-, hRest⟩ := List.forall_mem_cons.mp hRest
    exact List.forall_mem_cons.mpr ⟨hItem _ _ hOne hFirst, ih hRest⟩

theorem Grammar.Name.isName {name : String} (h : Name ts name)
    (hWords : ∀ t ∈ ts, t.WellSpelled) : IsName name := by
  obtain ⟨t, rfl, hKind⟩ := h
  exact (hWords t List.mem_cons_self).1 name hKind

/-- **Every rule of the grammar makes producible trees of producible parts.** -/
theorem Node.producible_rules : Rules Produces Produces Produces where
  chain hFirst hRest hTree := by
    intro hWords
    obtain ⟨hHead, hTail⟩ := List.forall_mem_append.mp hWords
    exact hTree.producible (hFirst.2 hHead) (hRest.producible hTail)
  primary hPrimary := hPrimary.2
  call hCallee _ hArgs _ := by
    intro hWords
    obtain ⟨hHead, hBrackets⟩ := List.forall_mem_append.mp hWords
    obtain ⟨-, hBrackets⟩ := List.forall_mem_cons.mp hBrackets
    obtain ⟨hInner, -⟩ := List.forall_mem_append.mp hBrackets
    refine ⟨hCallee.2 hHead, allProducible_iff.mpr ?_⟩
    exact hArgs.forall_mem (fun _ _ hItem => hItem.2) hInner
  leaf hLeaf := fun hWords => producible_leaf (hWords _ List.mem_cons_self) hLeaf
  group _ hInner _ := by
    intro hWords
    obtain ⟨-, hRest⟩ := List.forall_mem_cons.mp hWords
    exact hInner.2 (List.forall_mem_append.mp hRest).1
  block _ hBody _ := by
    intro hWords
    obtain ⟨-, hRest⟩ := List.forall_mem_cons.mp hWords
    refine producible_blockNode ?_
    exact hBody.forall_mem (fun _ _ hItem => hItem.2) (List.forall_mem_append.mp hRest).1
  conditional _ hTest _ hYes hNo := by
    intro hWords
    obtain ⟨-, hWords⟩ := List.forall_mem_cons.mp hWords
    obtain ⟨hTested, hWords⟩ := List.forall_mem_append.mp hWords
    obtain ⟨-, hWords⟩ := List.forall_mem_append.mp hWords
    obtain ⟨hFirst, hSecond⟩ := List.forall_mem_append.mp hWords
    refine ⟨hTest.2 hTested, hYes.2 hFirst, ?_⟩
    cases hNo with
    | absent => trivial
    | present _ hBranch => exact hBranch.2 (List.forall_mem_cons.mp hSecond).2
  function _ _ hParams _ hBody := by
    intro hWords
    obtain ⟨-, hWords⟩ := List.forall_mem_cons.mp hWords
    obtain ⟨-, hWords⟩ := List.forall_mem_cons.mp hWords
    obtain ⟨hNames, hWords⟩ := List.forall_mem_append.mp hWords
    refine ⟨?_, hBody.2 (List.forall_mem_cons.mp hWords).2⟩
    exact hParams.forall_mem (fun _ _ hName => hName.isName) hNames

end Rules

/-- The tree of a text is a program of producible trees. -/
theorem producible_of_parse {source : String} {n : Node} (h : parse source = .ok n) :
    ∃ body, n = .program body ∧ ∀ x ∈ body, x.Producible IsNumeral := by
  obtain ⟨hBody⟩ := program_of_parse h
  refine ⟨_, rfl, hBody.forall_mem (fun ts x hItem hWords => ?_) wellSpelled_of_mem_scan⟩
  exact derives_induction Node.producible_rules hItem hWords

-- ----------------------------------------------------------------------------
-- A text for a tree
-- ----------------------------------------------------------------------------

/-- A text of the tree that can stand as an operand, whatever breaks it off. -/
def Enclosed (n : Node) : Prop :=
  ∃ text ts, Lexes text ts ∧ Ordered.Closed ts n

section Enclosed

variable {n m : Node}

theorem Ordered.Closed.operand {ts : List Token} (h : Ordered.Closed ts n) :
    Ordered.Operand ts n .tight := by
  have hOperand := Ordered.Operand.tight h .none
  rwa [List.append_nil] at hOperand

theorem Ordered.Operand.expression {ts : List Token} {e : Ordered.Edge}
    (h : Ordered.Operand ts n e) : Ordered.Expression ts ⟨n, e.opened⟩ :=
  have hRanked : (ChainTree.operand n).Ranked := trivial
  .grouped (.last h) hRanked

theorem Ordered.Closed.expression {ts : List Token} (h : Ordered.Closed ts n) :
    Ordered.Expression ts ⟨n, .loose⟩ :=
  h.operand.expression

/-- An expression in parentheses. -/
theorem enclosed_group {text : List Char} {ts : List Token} {e : Ordered.Edge}
    (hText : Lexes text ts) (h : Ordered.Expression ts ⟨n, e⟩) : Enclosed n :=
  ⟨_, _, hText.parens, .group rfl h rfl⟩

theorem enclosed_leaf {cls : WordClass} {word : List Char} {kind : TokenKind}
    (hMeans : cls.Means word kind) (hLeaf : kind.token.leaf? = some n) : Enclosed n :=
  ⟨_, _, lexes_word hMeans, .leaf hLeaf⟩

/-- A string of which every character is escaped. -/
theorem quotes_escapes (cs : List Char) : Quotes (cs.flatMap fun c => ['\\', c]) cs := by
  induction cs with
  | nil => exact .nil
  | cons c cs ih => exact .escaped ih

theorem enclosed_string (value : String) : Enclosed (.string value) := by
  have hMeans := WordClass.Means.string (quotes_escapes value.toList)
  rw [String.ofList_toList] at hMeans
  exact enclosed_leaf hMeans rfl

theorem enclosed_operation {symbol : List Char} {s : String} {op : ChainOp} (hLeft : Enclosed n)
    (hRight : Enclosed m) (hSymbol : WordClass.Means .symbol symbol (.operator s))
    (hOp : (TokenKind.operator s).token.chainOp? = some op) : Enclosed (op.join n m) := by
  obtain ⟨left, ts, hLexes, hClosed⟩ := hLeft
  obtain ⟨right, us, hLexes', hClosed'⟩ := hRight
  have hText := hLexes.append ((lexes_word hSymbol).append hLexes'.space (breaks_space _)).space
    (breaks_space _)
  have hTree : (ChainTree.join op (.operand n) (.operand m)).Ranked :=
    ⟨trivial, trivial, by rintro _ ⟨⟩, by rintro _ ⟨⟩⟩
  have hChain := Ordered.Chain.link hClosed.operand hOp (.last hClosed'.operand)
  exact enclosed_group hText (.grouped hChain hTree)

/-- Texts and tokens of several trees, each of which can stand as an operand. -/
def AllEnclosed (xs : List Node) : Prop :=
  ∃ texts tss, List.Forall₂ Lexes texts tss ∧ List.Forall₂ Ordered.Closed tss xs

theorem allEnclosed_nil : AllEnclosed [] :=
  ⟨[], [], .nil, .nil⟩

theorem Enclosed.cons {xs : List Node} (h : Enclosed n) (h' : AllEnclosed xs) :
    AllEnclosed (n :: xs) := by
  obtain ⟨text, ts, hLexes, hClosed⟩ := h
  obtain ⟨texts, tss, hTexts, hTrees⟩ := h'
  exact ⟨text :: texts, ts :: tss, .cons hLexes hTexts, .cons hClosed hTrees⟩

/-- Operands with separators between them are a list of expressions. -/
theorem listed_intercalate {tss : List (List Token)} {xs : List Node} (separator : Char)
    (h : List.Forall₂ Ordered.Closed tss xs) : ∃ readings : List Ordered.Reading,
      xs = readings.map Ordered.Reading.node ∧
      Listed Ordered.Expression separator (List.intercalate [mark separator] tss) readings := by
  induction h with
  | nil => exact ⟨[], rfl, .nil⟩
  | @cons ts x tss xs hFirst hRest ih =>
    obtain ⟨readings, rfl, hListed⟩ := ih
    refine ⟨⟨x, .loose⟩ :: readings, rfl, ?_⟩
    cases tss with
    | nil =>
      cases readings with
      | nil =>
        rw [List.intercalate_singleton]
        exact .last hFirst.expression
      | cons => cases hRest
    | cons us tss =>
      rw [List.intercalate_cons_cons, List.append_assoc]
      exact .cons hFirst.expression rfl hListed

theorem enclosed_block {body : List Node} (hBody : AllEnclosed body) (hLength : 2 ≤ body.length) :
    Enclosed (.program body) := by
  obtain ⟨texts, tss, hTexts, hTrees⟩ := hBody
  obtain ⟨readings, rfl, hListed⟩ := listed_intercalate ';' hTrees
  have hText := Lexes.mark (c := '{') rfl ((lexes_intercalate (c := ';') rfl hTexts).append
    (.mark (c := '}') rfl lexes_nil) (breaks_mark rfl []))
  have hClosed := Ordered.Closed.block (o := mark '{') (c := mark '}') rfl hListed rfl
  match readings, hLength, hClosed with
  | _ :: _ :: _, _, hClosed => exact ⟨_, _, hText, hClosed⟩

theorem enclosed_call {callee : Node} {args : List Node} (hCallee : Enclosed callee)
    (hArgs : AllEnclosed args) : Enclosed (.call callee args) := by
  obtain ⟨text, ts, hLexes, hClosed⟩ := hCallee
  obtain ⟨texts, tss, hTexts, hTrees⟩ := hArgs
  obtain ⟨readings, rfl, hListed⟩ := listed_intercalate ',' hTrees
  have hText := hLexes.append (lexes_intercalate (c := ',') rfl hTexts).parens (breaks_mark rfl _)
  have hApplied : Ordered.Applied _ callee (.call callee (readings.map Ordered.Reading.node)) :=
    .call (o := mark '(') (c := mark ')') rfl hListed rfl .none
  exact enclosed_group hText (Ordered.Operand.tight hClosed hApplied).expression

/-- A word and a text behind it. -/
theorem lexes_keyword {text : List Char} {ts : List Token} (k : Keyword) (h : Lexes text ts) :
    Lexes (k.text.toList ++ ' ' :: text) ((TokenKind.keyword k).token :: ts) :=
  (lexes_word (keyword_means k)).append h.space (breaks_space _)

theorem enclosed_condition {test yes : Node} {no : Option Node} (hTest : Enclosed test)
    (hYes : Enclosed yes) (hNo : ∀ x ∈ no, Enclosed x) : Enclosed (.condition test yes no) := by
  obtain ⟨first, ts, hFirst, hTested⟩ := hTest
  obtain ⟨second, us, hSecond, hThen⟩ := hYes
  have hBridge : Bridge [(TokenKind.keyword .teli).token] us := Or.inl ⟨_, rfl, rfl⟩
  cases no with
  | none =>
    have hText := lexes_keyword .yeli
      (hFirst.append (lexes_keyword .teli hSecond).space (breaks_space _))
    have hOperand := Ordered.Operand.conditional (k := (TokenKind.keyword .yeli).token) rfl
      hTested.expression hBridge hThen.expression
    exact enclosed_group hText hOperand.expression
  | some x =>
    obtain ⟨third, vs, hThird, hElse⟩ := hNo x rfl
    have hBranches := hSecond.append (lexes_keyword .nate hThird).space (breaks_space _)
    have hText := lexes_keyword .yeli
      (hFirst.append (lexes_keyword .teli hBranches).space (breaks_space _))
    have hPaired : Ordered.Edge.loose ≠ .dangling := by decide
    have hOperand := Ordered.Operand.otherwise (k := (TokenKind.keyword .yeli).token)
      (t := (TokenKind.keyword .nate).token) rfl hTested.expression hBridge hThen.expression
      hPaired rfl hElse.expression
    exact enclosed_group hText hOperand.expression

theorem listed_params (params : List String) : Listed Name ','
    (List.intercalate [mark ','] (params.map fun p => [(TokenKind.name p).token])) params := by
  induction params with
  | nil => exact .nil
  | cons p params ih =>
    cases params with
    | nil => exact .last ⟨_, rfl, rfl⟩
    | cons q params => exact .cons ⟨_, rfl, rfl⟩ rfl ih

theorem enclosed_lambda {params : List String} {body : Node} (hParams : ∀ p ∈ params, IsName p)
    (hBody : Enclosed body) : Enclosed (.lambda params body) := by
  obtain ⟨text, ts, hLexes, hClosed⟩ := hBody
  obtain ⟨hNames, hBreaks⟩ := lexes_params fun p hp => (hParams p hp).1
  have hText := (lexes_word (keyword_means .banav)).append
    (hNames.append hLexes.space (breaks_space _)) (hBreaks.append (breaks_space _))
  have hOperand := Ordered.Operand.function (k := (TokenKind.keyword .banav).token) (o := mark '(')
    (c := mark ')') (Or.inl rfl) rfl (listed_params params) rfl hClosed.expression
  simp only [parens, List.cons_append, List.nil_append, List.append_assoc] at hText
  exact enclosed_group hText hOperand.expression

end Enclosed

namespace Node

mutual

/-- **A producible tree has a text that can stand as an operand.** -/
theorem enclosed : ∀ n : Node, n.Producible IsNumeral → Enclosed n
  | .program body, h => enclosed_block (allEnclosed body h.2) h.1
  | .assignment target value, h =>
    have hSymbol : WordClass.Means .symbol ['='] (.operator "=") :=
      .symbol (c := '=') (by decide) (List.forall_mem_nil _)
    have hOp : (TokenKind.operator "=").token.chainOp? = some .assign := rfl
    enclosed_operation (enclosed target h.1) (enclosed value h.2) hSymbol hOp
  | .binary op left right, h =>
    have hOp : (TokenKind.operator op.symbol).token.chainOp? = some (.compute op) := by
      cases op <;> rfl
    enclosed_operation (enclosed left h.1) (enclosed right h.2) (symbol_means op) hOp
  | .condition test yes no, h =>
    enclosed_condition (enclosed test h.1) (enclosed yes h.2.1) (enclosed_else no h.2.2)
  | .lambda _ body, h => enclosed_lambda h.1 (enclosed body h.2)
  | .call callee args, h => enclosed_call (enclosed callee h.1) (allEnclosed args h.2)
  | .var name, h =>
    let ⟨_, hMeans⟩ := ReadsAs.means h.1
    enclosed_leaf hMeans rfl
  | .number _, h =>
    let ⟨_, hMeans⟩ := IsNumeral.exists_means h
    enclosed_leaf hMeans rfl
  | .string value, _ => enclosed_string value
  | .boolean true, _ => enclosed_leaf (keyword_means .poz) rfl
  | .boolean false, _ => enclosed_leaf (keyword_means .apuz) rfl

theorem allEnclosed : ∀ xs : List Node, AllProducible IsNumeral xs → AllEnclosed xs
  | [], _ => allEnclosed_nil
  | x :: xs, h => (enclosed x h.1).cons (allEnclosed xs h.2)

theorem enclosed_else : ∀ no : Option Node, ElseProducible IsNumeral no → ∀ x ∈ no, Enclosed x
  | none, _ => by rintro x ⟨⟩
  | some x, h => by
    have hx := enclosed x h
    rintro y ⟨⟩
    exact hx

end

end Node

-- ----------------------------------------------------------------------------
-- All trees of texts
-- ----------------------------------------------------------------------------

theorem exists_parse_of_producible {body : List Node}
    (h : ∀ x ∈ body, x.Producible IsNumeral) : ∃ source, parse source = .ok (.program body) := by
  obtain ⟨texts, tss, hTexts, hTrees⟩ := Node.allEnclosed body (Node.allProducible_iff.mpr h)
  obtain ⟨readings, rfl, hListed⟩ := listed_intercalate ';' hTrees
  have hParse := (Ordered.Program.body hListed).parse_eq .start
  refine ⟨String.ofList (List.intercalate [';', ' '] texts), Scan.parse_ok_of_reading ?_ hParse⟩
  have hLexes := lexes_intercalate (c := ';') rfl hTexts [] (by rintro c ⟨⟩)
  rw [List.append_nil] at hLexes
  rw [scan_reading, String.toList_ofList, hLexes]
  exact Prod.ext (List.append_nil _).symm rfl

/-- **What parsing can produce**, exactly. -/
theorem exists_parse_iff {n : Node} : (∃ source, parse source = .ok n) ↔
    ∃ body, n = .program body ∧ ∀ x ∈ body, x.Producible IsNumeral := by
  constructor
  · rintro ⟨source, hParse⟩
    exact producible_of_parse hParse
  · rintro ⟨body, rfl, hBody⟩
    exact exists_parse_of_producible hBody

/-- **The trees of texts are the programs of producible trees.** The tree of a text is one, and its
numbers have no sign; and every such program whose numbers are values of numerals has a text. -/
theorem texts_have_producible_trees :
    (∀ source n, parse source = .ok n →
      ∃ body, n = .program body ∧ ∀ x ∈ body, x.Producible Signless) ∧
    ∀ body : List Node, (∀ x ∈ body, x.Producible fun v => Signless v ∧ IsNumeral v) →
      ∃ source, parse source = .ok (.program body) := by
  constructor
  · intro source n hParse
    obtain ⟨body, rfl, hBody⟩ := exists_parse_iff.mp ⟨source, hParse⟩
    exact ⟨body, rfl, fun x hx => (hBody x hx).mono fun _ hNumber => hNumber.signless⟩
  · intro body hBody
    refine exists_parse_iff.mpr ⟨body, rfl, fun x hx => ?_⟩
    exact (hBody x hx).mono fun _ hBoth => hBoth.2

/-- A function that is called where it stands, with a conditional, a sequence, a fraction and a line
feed in it. -/
def calledFunction : Node :=
  .call (.lambda ["x"] (.condition (.var "x")
    (.program [.number (Numeral.value ['0', '.', '5']), .string "\n"]) none)) [.boolean true]

theorem texts_have_producible_trees_calledFunction :
    (parse "f(x)" = .ok (.program [.call (.var "f") [.var "x"]]) ∧
      ∃ body, Node.program [.call (.var "f") [.var "x"]] = .program body ∧
        ∀ x ∈ body, x.Producible Signless) ∧
    (∀ x ∈ [calledFunction], x.Producible fun v => Signless v ∧ IsNumeral v) ∧
    ∃ source, parse source = .ok (.program [calledFunction]) := by
  have hParse : parse "f(x)" = .ok (.program [.call (.var "f") [.var "x"]]) := rfl
  have hName : IsName "x" := by
    refine ⟨⟨⟨1, 1⟩, rfl⟩, fun k => ?_⟩
    cases k <;> decide
  have hNumeral : IsNumeral (Numeral.value ['0', '.', '5']) :=
    ⟨['0'], ['5'], List.cons_ne_nil '0' [], List.forall_mem_singleton.mpr rfl,
      List.forall_mem_singleton.mpr rfl, Or.inr rfl⟩
  have hTree : ∀ x ∈ [calledFunction], x.Producible fun v => Signless v ∧ IsNumeral v := by
    refine List.forall_mem_singleton.mpr ⟨⟨List.forall_mem_singleton.mpr hName, hName, ?_, trivial⟩,
      trivial, trivial⟩
    exact ⟨Nat.le_refl 2, ⟨hNumeral.signless, hNumeral⟩, trivial, trivial⟩
  exact ⟨⟨hParse, texts_have_producible_trees.1 _ _ hParse⟩, hTree,
    texts_have_producible_trees.2 _ hTree⟩

end Zaban
