import Zaban.Proofs.Grammar.Ordered
import Zaban.Proofs.Syntax.ReadBack

/-!
# Precedence climbing builds the ranked tree

The readers take every phrase of the ordered grammar, in front of what ends it,
for the tree that the grammar gives it (`Ordered.complete_readers`). With
`Ordered.sound_readers` this makes the grammar exactly what the parser reads
(`climbing_builds_ranked_tree`).

The loop over a chain is the one place where reader and grammar go different
ways. The reader takes operands one by one, and calls itself with a higher
threshold behind each; the grammar says what the tree looks like in the end.
Between them stands what the loop keeps: the tree that it has built is ranked,
and holds the chain up to here (`Climbed`). A chain has one ranked tree, so at
the end of the chain it is the tree of the grammar.

A reader with too little fuel is cut off, which is no exception to any of this
(`Yields`, `Gives`).
-/

namespace Zaban

open Reader

/-- The outcome is a phrase of which `P` holds, or the recursion was cut off. -/
def Gives {α : Type} (P : α → List Token → Prop) (outcome : Outcome (Phrase α)) : Prop :=
  outcome = .error .outOfFuel ∨ ∃ a rest, outcome = .ok (a, rest) ∧ P a rest

section Gives

variable {α β : Type} {P : α → List Token → Prop} {Q : β → List Token → Prop}

theorem Gives.andThen {p : Reader α} {f : α → Reader β} {ts : List Token} (hp : Gives P (p ts))
    (hf : ∀ a rest, P a rest → Gives Q (f a rest)) : Gives Q (andThen p f ts) := by
  unfold Reader.andThen
  rcases hp with hp | ⟨a, rest, hp, ha⟩
  · rw [hp]
    exact Or.inl rfl
  · rw [hp]
    exact hf a rest ha

theorem Gives.imp {P' : α → List Token → Prop} {o : Outcome (Phrase α)} (h : Gives P o)
    (hImp : ∀ a rest, P a rest → P' a rest) : Gives P' o := by
  rcases h with h | ⟨a, rest, h, ha⟩
  · exact Or.inl h
  · exact Or.inr ⟨a, rest, h, hImp a rest ha⟩

theorem Yields.andThen_gives {p : Reader α} {f : α → Reader β} {ts rest : List Token} {a : α}
    (hp : Yields (.ok (a, rest)) (p ts)) (hf : Gives Q (f a rest)) :
    Gives Q (Reader.andThen p f ts) := by
  unfold Reader.andThen
  rcases hp with hp | hp
  · rw [hp]
    exact hf
  · rw [hp]
    exact Or.inl rfl

theorem Yields.gives {a : α} {rest : List Token} {o : Outcome (Phrase α)}
    (h : Yields (.ok (a, rest)) o) (hP : P a rest) : Gives P o := by
  rcases h with h | h
  · exact Or.inr ⟨a, rest, h, hP⟩
  · exact Or.inl h

theorem Gives.yields {a : α} {rest : List Token} {o : Outcome (Phrase α)} (h : Gives P o)
    (hP : ∀ b vs, P b vs → b = a ∧ vs = rest) : Yields (.ok (a, rest)) o := by
  rcases h with h | ⟨b, vs, h, hb⟩
  · exact Or.inr h
  · obtain ⟨rfl, rfl⟩ := hP b vs hb
    exact Or.inl h

end Gives

-- ----------------------------------------------------------------------------
-- Lists
-- ----------------------------------------------------------------------------

section Items

open Grammar

variable {α β : Type} {fin : Ending} {item : Reader α} {phrase : List Token → β → Prop}
  {separator stop : Char} {f : β → α}

/-- In front of an item, a reader of lists reads it and goes on. -/
theorem readItems_first {ts rest us : List Token} {a : α} {as : List α} {fuel : Nat}
    (hTs : ts ≠ []) (hStop : nextIs stop ts = false) (hItem : Yields (.ok (a, us)) (item ts))
    (hMore : Yields (.ok (as, rest)) (readItems fin item separator stop fuel false us)) :
    Yields (.ok (a :: as, rest)) (readItems fin item separator stop (fuel + 1) true ts) := by
  obtain ⟨t, vs, rfl⟩ := List.exists_cons_of_ne_nil hTs
  rw [nextIs_cons] at hStop
  have hGo : readItems fin item separator stop (fuel + 1) true (t :: vs) =
      itemThenMore fin item separator stop fuel (t :: vs) := by
    rw [readItems_first_eq, look, itemMove, hStop]
    rfl
  rw [hGo, itemThenMore]
  exact hItem.andThen (hMore.andThen (.refl _))

/-- **A list of the grammar is read item by item**, up to its closing mark. -/
theorem readItems_listed (hDiff : separator ≠ stop)
    (hItem : ∀ {ts b t us}, phrase ts b →
      (t.kind = .punctuation separator ∨ t.kind = .punctuation stop) →
      Yields (.ok (f b, t :: us)) (item (ts ++ t :: us)))
    (hFirst : ∀ {ts b us}, phrase ts b → nextIs stop (ts ++ us) = false)
    {ts : List Token} {bs : List β} (h : Listed phrase separator ts bs) {c : Token}
    (hClose : c.kind = .punctuation stop) (rest : List Token) (fuel : Nat) :
    Yields (.ok (bs.map f, rest)) (readItems fin item separator stop fuel true
      (ts ++ c :: rest)) := by
  induction h generalizing fuel with
  | nil =>
    cases fuel with
    | zero => exact Or.inr rfl
    | succ fuel => exact Or.inl (readItems_stop hClose rest true fuel)
  | last hPhrase =>
    cases fuel with
    | zero => exact Or.inr rfl
    | succ fuel =>
      refine readItems_first (by simp) (hFirst hPhrase) (hItem hPhrase (Or.inr hClose)) ?_
      cases fuel with
      | zero => exact Or.inr rfl
      | succ fuel => exact Or.inl (readItems_stop hClose rest false fuel)
  | cons hPhrase hMark _ ih =>
    cases fuel with
    | zero => exact Or.inr rfl
    | succ fuel =>
      rw [List.append_assoc, List.cons_append]
      refine readItems_first (by simp) (hFirst hPhrase) (hItem hPhrase (Or.inl hMark)) ?_
      cases fuel with
      | zero => exact Or.inr rfl
      | succ fuel =>
        rw [readItems_separator hDiff hMark (by simp) fuel]
        exact ih (fuel + 1)

end Items

namespace Ordered

open Grammar

-- ----------------------------------------------------------------------------
-- The loop over a chain
-- ----------------------------------------------------------------------------

/-- What follows an operand of a chain: nothing, or an operator and a chain. -/
inductive Links : List Token → List (ChainOp × Node) → Edge → Prop where
  | done {e : Edge} : Links [] [] e
  | more {t : Token} {op : ChainOp} {us : List Token} {m : Node} {xs : List (ChainOp × Node)}
      {e : Edge} (hOp : t.chainOp? = some op) (hRest : Chain Operand us m xs e) :
      Links (t :: us) ((op, m) :: xs) e

/-- The operator that comes next binds no tighter than the threshold. -/
def Weak (threshold : Nat) (xs : List (ChainOp × Node)) : Prop :=
  ∀ x ∈ xs.head?, x.1.precedence ≤ threshold

/-- What the loop has come to in front of `behind`, when it began with the tree `l` in front of the
chain `xs`: a ranked tree above the threshold that holds as much of the chain as is read, and in
front of it an operator that is not above the threshold. -/
def Climbed (threshold : Nat) (l : ChainTree) (xs : List (ChainOp × Node)) (e : Edge)
    (rest : List Token) (n : Node) (behind : List Token) : Prop :=
  ∃ tree zs vs, n = ChainTree.node tree ∧ behind = vs ++ rest ∧ Links vs zs e ∧ tree.Ranked ∧
    tree.first = l.first ∧ tree.rest ++ zs = l.rest ++ xs ∧
    (∀ o ∈ tree.top?, threshold < o.precedence) ∧ Weak threshold zs

/-- What every reader does with the phrases of the ordered grammar, with one amount of fuel. -/
structure Complete (p : Position) (fuel : Nat) : Prop where
  expression : ∀ {ts x rest}, Expression ts x → x.edge.Ends rest →
    Yields (.ok (x.node, rest)) (readExpression (.finished p) fuel (ts ++ rest))
  chain : ∀ {threshold l us xs e rest}, Links us xs e → e.opened.Ends rest → ChainTree.Ranked l →
    (∀ o ∈ l.top?, threshold < o.precedence ∧ Weak o.precedence xs) →
    Gives (Climbed threshold l xs e rest)
      (readChain (.finished p) fuel threshold l.node (us ++ rest))
  arguments : ∀ {ts callee n rest}, Applied ts callee n → nextIs '(' rest = false →
    Yields (.ok (n, rest)) (readArguments (.finished p) fuel callee (ts ++ rest))
  operand : ∀ {ts n e rest}, Operand ts n e → e.Ends rest →
    Yields (.ok (n, rest)) (readOperand (.finished p) fuel (ts ++ rest))
  closed : ∀ {ts n} rest, Closed ts n →
    Yields (.ok (n, rest)) (readAtomAt (.finished p) fuel (ts ++ rest))
  loose : ∀ {ts n e rest}, Operand ts n e → e ≠ .tight → e.Ends rest →
    Yields (.ok (n, rest)) (readAtomAt (.finished p) fuel (ts ++ rest))
  conditional : ∀ {ts ws us test yes rest}, Expression ts test → Bridge ws us →
    Expression us yes → Edge.dangling.Ends rest →
    Yields (.ok (.condition test.node yes.node none, rest))
      (readConditional (.finished p) fuel (ts ++ (ws ++ (us ++ rest))))
  otherwise : ∀ {ts ws us vs t test yes no rest}, Expression ts test → Bridge ws us →
    Expression us yes → yes.edge ≠ .dangling → t.kind = .keyword .nate → Expression vs no →
    no.edge.Ends rest →
    Yields (.ok (.condition test.node yes.node (some no.node), rest))
      (readConditional (.finished p) fuel (ts ++ (ws ++ (us ++ t :: (vs ++ rest)))))
  function : ∀ {o c ts us params body rest}, o.kind = .punctuation '(' →
    Listed Name ',' ts params → c.kind = .punctuation ')' → Expression us body →
    body.edge.Ends rest →
    Yields (.ok (.lambda params body.node, rest))
      (readFunction (.finished p) fuel (o :: (ts ++ c :: (us ++ rest))))

section Step

variable {p : Position} {fuel : Nat}

theorem Edge.Ends.stops {e : Edge} {ts : List Token} (h : e.opened.Ends ts) (threshold : Nat) :
    Stops threshold ts := by
  have hStops := h.noOperator e.opened_ne_tight
  refine ⟨hStops.noArguments, fun t us op hEq hOp => ?_⟩
  have hWeak := hStops.noOperator t us op hEq hOp
  omega

theorem isMark_of_chainOp? {t : Token} {op : ChainOp} (hOp : t.chainOp? = some op) (mark : Char) :
    t.isMark mark = false := by
  rw [Bool.eq_false_iff]
  intro hMark
  simp [Token.chainOp?, Token.isMark_iff.mp hMark] at hOp

/-- Of a chain, the first operand is read. -/
theorem Complete.first (h : Complete p fuel) {us : List Token} {m : Node}
    {xs : List (ChainOp × Node)} {e : Edge} {rest : List Token} (hChain : Chain Operand us m xs e)
    (hEnds : e.opened.Ends rest) : ∃ vs, Links vs xs e ∧
      Yields (.ok (m, vs ++ rest)) (readOperand (.finished p) fuel (us ++ rest)) := by
  cases hChain with
  | last hOperand => exact ⟨[], .done, h.operand hOperand hEnds.of_opened⟩
  | @link ts us t op n m xs e hOperand hOp hRest =>
    refine ⟨t :: us, .more hOp hRest, ?_⟩
    have hTight : Edge.tight.Ends (t :: (us ++ rest)) := by
      refine ⟨isMark_of_chainOp? hOp '(', fun hLoose => absurd rfl hLoose, ?_⟩
      rintro ⟨⟩
    rw [List.append_assoc]
    exact h.operand hOperand hTight

/-- **One round of the loop.** The operator is above the threshold; its right operand is what is
above the operator, and the loop goes on with the two joined. -/
theorem Complete.chain_succ (h : Complete p fuel) {threshold : Nat} {l : ChainTree}
    {us : List Token} {xs : List (ChainOp × Node)} {e : Edge} {rest : List Token}
    (hLinks : Links us xs e) (hEnds : e.opened.Ends rest) (hRanked : l.Ranked)
    (hTop : ∀ o ∈ l.top?, threshold < o.precedence ∧ Weak o.precedence xs) :
    Gives (Climbed threshold l xs e rest)
      (readChain (.finished p) (fuel + 1) threshold l.node (us ++ rest)) := by
  have hAbove : ∀ o ∈ l.top?, threshold < o.precedence := fun o ho => (hTop o ho).1
  cases hLinks with
  | done =>
    refine (readChain_stop (hEnds.stops threshold) l.node (fuel + 1)).gives ?_
    exact ⟨l, [], [], rfl, rfl, .done, hRanked, rfl, rfl, hAbove, by rintro _ ⟨⟩⟩
  | @more t op us m xs e hOp hRest =>
    rw [readChain_eq, List.cons_append, look, chainMove, hOp]
    dsimp only [Move.go]
    by_cases hWeak : op.precedence ≤ threshold
    · rw [if_pos hWeak]
      refine Or.inr ⟨l.node, t :: (us ++ rest), rfl, l, (op, m) :: xs, t :: us, rfl, rfl,
        .more hOp hRest, hRanked, rfl, rfl, hAbove, ?_⟩
      rintro _ ⟨⟩
      exact hWeak
    · rw [if_neg hWeak]
      obtain ⟨vs, hVs, hOperand⟩ := h.first hRest hEnds
      have hRight : Gives (Climbed op.precedence (.operand m) xs e rest)
          (readChain (.finished p) fuel op.precedence m (vs ++ rest)) :=
        h.chain hVs hEnds trivial (by rintro _ ⟨⟩)
      refine hOperand.andThen_gives ?_
      refine hRight.andThen ?_
      rintro _ _ ⟨r, zs, ws, rfl, rfl, hWs, hRankedRight, hFirst, hHeld, hTighter, hNext⟩
      have hJoined : (ChainTree.join op l r).Ranked :=
        ⟨hRanked, hRankedRight, fun o ho => (hTop o ho).2 _ rfl, hTighter⟩
      have hMore : Gives (Climbed threshold (.join op l r) zs e rest)
          (readChain (.finished p) fuel threshold (op.join l.node r.node) (ws ++ rest)) := by
        refine h.chain hWs hEnds hJoined ?_
        rintro _ ⟨⟩
        exact ⟨Nat.lt_of_not_le hWeak, hNext⟩
      -- the joined tree holds the operator, and what the right operand holds of the chain
      have hChain : (ChainTree.join op l r).rest ++ zs = l.rest ++ (op, m) :: xs := by
        have hOperands : r.rest ++ zs = xs := hHeld
        have hNode : r.first = m := hFirst
        rw [ChainTree.rest, hNode, List.append_assoc, List.cons_append, hOperands]
      refine hMore.imp ?_
      rintro n behind ⟨tree, ys, us, hNode, hBehind, hUs, hTree, hFirst', hHeld', hAbove', hStop⟩
      exact ⟨tree, ys, us, hNode, hBehind, hUs, hTree, hFirst', hHeld'.trans hChain, hAbove',
        hStop⟩

/-- At the end of the chain the loop has built the ranked tree of it. -/
theorem Climbed.eq {tree : ChainTree} (hRanked : tree.Ranked) {e : Edge} {rest behind : List Token}
    {n : Node} (h : Climbed 0 (.operand tree.first) tree.rest e rest n behind) :
    n = tree.node ∧ behind = rest := by
  obtain ⟨tree', zs, vs, rfl, rfl, hVs, hRanked', hFirst, hHeld, -, hWeak⟩ := h
  cases hVs with
  | done =>
    have hRest : tree'.rest = tree.rest := by rw [← List.append_nil tree'.rest, hHeld]; rfl
    have hSame : tree' = tree := by
      rw [← hRanked'.eq_ofChain, ← hRanked.eq_ofChain, hFirst, hRest]
      rfl
    exact ⟨congrArg ChainTree.node hSame, rfl⟩
  | @more t op us m xs e hOp hRest =>
    have hZero : op.precedence ≤ 0 := hWeak (op, m) rfl
    have hPos := op.precedence_pos
    omega

theorem Complete.expression_succ (h : Complete p fuel) {ts : List Token} {x : Reading}
    {rest : List Token} (hExpression : Expression ts x) (hEnds : x.edge.Ends rest) :
    Yields (.ok (x.node, rest)) (readExpression (.finished p) (fuel + 1) (ts ++ rest)) := by
  cases hExpression with
  | @grouped ts tree e hChain hRanked =>
    obtain ⟨vs, hVs, hFirst⟩ := h.first hChain hEnds
    have hClimbs : Gives (Climbed 0 (.operand tree.first) tree.rest e rest)
        (readChain (.finished p) fuel 0 tree.first (vs ++ rest)) :=
      h.chain hVs hEnds trivial (by rintro _ ⟨⟩)
    rw [readExpression_eq]
    refine hFirst.andThen ?_
    refine (hClimbs.yields fun _ _ hClimbed => hClimbed.eq hRanked).andThen ?_
    exact readArguments_stop hEnds.noArguments _ fuel

theorem Complete.items (h : Complete p fuel) {separator stop : Char} (hDiff : separator ≠ stop)
    (hSeparator : separator ≠ '(') (hParen : stop ≠ '(') (hBrace : stop ≠ '{') {ts : List Token}
    {xs : List Reading} (hListed : Listed Expression separator ts xs) {c : Token}
    (hClose : c.kind = .punctuation stop) (rest : List Token) :
    Yields (.ok (xs.map Reading.node, rest)) (readItems (.finished p)
      (readExpression (.finished p) fuel) separator stop fuel true (ts ++ c :: rest)) := by
  refine readItems_listed hDiff ?_ ?_ hListed hClose rest fuel
  · intro ts x t us hItem hMark
    refine h.expression hItem (ends_of_halts ?_ _)
    rcases hMark with hMark | hMark
    · exact halts_of_mark us hMark hSeparator
    · exact halts_of_mark us hMark hParen
  · intro ts x us hItem
    exact hItem.nextIs_eq_false hParen hBrace us

theorem Complete.arguments_succ (h : Complete p fuel) {ts : List Token} {callee n : Node}
    {rest : List Token} (hApplied : Applied ts callee n) (hNext : nextIs '(' rest = false) :
    Yields (.ok (n, rest)) (readArguments (.finished p) (fuel + 1) callee (ts ++ rest)) := by
  cases hApplied with
  | none => exact readArguments_stop hNext callee (fuel + 1)
  | @call o c us vs _ _ args hOpen hArgs hClose hRest =>
    rw [readArguments_eq, List.cons_append, look, argumentsMove,
      if_pos (Token.isMark_iff.mpr hOpen), Move.go, List.append_assoc]
    have hItems := h.items (by decide) (by decide) (by decide) (by decide) hArgs hClose (vs ++ rest)
    refine hItems.andThen ?_
    exact h.arguments hRest hNext

theorem Complete.closed_succ (h : Complete p fuel) {ts : List Token} {n : Node} (rest : List Token)
    (hClosed : Closed ts n) :
    Yields (.ok (n, rest)) (readAtomAt (.finished p) (fuel + 1) (ts ++ rest)) := by
  cases hClosed with
  | leaf hLeaf => exact Or.inl (readAtom_leaf hLeaf rest)
  | @group ts o c inner hOpen hInner hClose =>
    have hMark : takeMark (.finished p) ')' (c :: rest) = .ok ((), rest) :=
      takeMark_eq_ok.mpr ⟨c, rfl, hClose⟩
    have hRead := h.expression hInner
      (ends_of_halts (halts_of_mark rest hClose (by decide)) _)
    rw [readAtomAt_eq, List.cons_append, look, List.append_assoc]
    simp only [atomMove, hOpen, Move.go]
    exact hRead.andThen ((show Yields (.ok ((), rest)) _ from Or.inl hMark).andThen (.refl _))
  | @block ts o c body hOpen hBody hClose =>
    have hItems := h.items (by decide) (by decide) (by decide) (by decide) hBody hClose rest
    rw [readAtomAt_eq, List.cons_append, look, List.append_assoc]
    simp only [atomMove, hOpen, Move.go]
    exact hItems.andThen (.refl _)

/-- A function or a conditional is read as far as it reaches. -/
theorem Complete.loose_succ (h : Complete p fuel) {ts : List Token} {n : Node} {e : Edge}
    {rest : List Token} (hOperand : Operand ts n e) (hLoose : e ≠ .tight) (hEnds : e.Ends rest) :
    Yields (.ok (n, rest)) (readAtomAt (.finished p) (fuel + 1) (ts ++ rest)) := by
  rw [readAtomAt_eq]
  cases hOperand with
  | tight => exact absurd rfl hLoose
  | function hWord hOpen hParams hClose hBody =>
    have hRead := h.function hOpen hParams hClose hBody hEnds
    simp only [List.cons_append, List.append_assoc, look]
    rcases hWord with hWord | hWord
    · simp only [atomMove, hWord, Move.go]
      exact hRead
    · simp only [atomMove, hWord, Move.go]
      exact hRead
  | conditional hWord hTest hBridge hYes =>
    simp only [List.cons_append, List.append_assoc, look, atomMove, hWord, Move.go]
    exact h.conditional hTest hBridge hYes hEnds
  | otherwise hWord hTest hBridge hYes hPaired hNate hNo =>
    simp only [List.cons_append, List.append_assoc, look, atomMove, hWord, Move.go]
    exact h.otherwise hTest hBridge hYes hPaired hNate hNo hEnds

theorem Complete.operand_succ (h : Complete p fuel) {ts : List Token} {n : Node} {e : Edge}
    {rest : List Token} (hOperand : Operand ts n e) (hEnds : e.Ends rest) :
    Yields (.ok (n, rest)) (readOperand (.finished p) (fuel + 1) (ts ++ rest)) := by
  rw [readOperand_eq]
  rcases hOperand.tight_or_loose with ⟨us, vs, m, rfl, hClosed, hApplied⟩ | hLoose
  · rw [List.append_assoc]
    refine (h.closed (vs ++ rest) hClosed).andThen ?_
    exact h.arguments hApplied hEnds.noArguments
  · refine (h.loose hOperand hLoose hEnds).andThen ?_
    exact readArguments_stop hEnds.noArguments n fuel

/-- The word before the first branch ends the test. -/
theorem Complete.branches (h : Complete p fuel) {ts ws us : List Token} {test : Reading}
    {o : Outcome (Phrase Node)} (hTest : Expression ts test) (hBridge : Bridge ws us)
    (hYes : Yields o (andThen (readExpression (.finished p) fuel)
      (readOtherwise (.finished p) fuel test.node) us)) :
    Yields o (readConditional (.finished p) (fuel + 1) (ts ++ (ws ++ us))) := by
  have hBridgeRead : Yields (.ok ((), us)) (readBridge (.finished p) (ws ++ us)) :=
    Or.inl (readBridge_complete hBridge)
  rw [readConditional_eq]
  refine (h.expression hTest (ends_of_halts hBridge.halts _)).andThen ?_
  refine hBridgeRead.andThen ?_
  exact hYes

theorem Complete.conditional_succ (h : Complete p fuel) {ts ws us : List Token}
    {test yes : Reading} {rest : List Token} (hTest : Expression ts test) (hBridge : Bridge ws us)
    (hYes : Expression us yes) (hEnds : Edge.dangling.Ends rest) :
    Yields (.ok (.condition test.node yes.node none, rest))
      (readConditional (.finished p) (fuel + 1) (ts ++ (ws ++ (us ++ rest)))) := by
  have hHalts : Halts rest := ⟨hEnds.noOperator (by decide), hEnds.noElse rfl⟩
  refine h.branches hTest (hBridge.append rest) ?_
  refine (h.expression hYes (ends_of_halts hHalts _)).andThen ?_
  cases rest with
  | nil => exact .refl _
  | cons t rest =>
    have hWord : t.isKeyword .nate = false := by
      rw [Bool.eq_false_iff]
      exact fun hNate => hHalts.noElse t rest rfl (Token.isKeyword_iff.mp hNate)
    refine Or.inl ?_
    simp only [readOtherwise, hWord]
    rfl

/-- `nate` ends a first branch that leaves no conditional open. -/
theorem Complete.otherwise_succ (h : Complete p fuel) {ts ws us vs : List Token} {t : Token}
    {test yes no : Reading} {rest : List Token} (hTest : Expression ts test)
    (hBridge : Bridge ws us) (hYes : Expression us yes) (hPaired : yes.edge ≠ .dangling)
    (hNate : t.kind = .keyword .nate) (hNo : Expression vs no) (hEnds : no.edge.Ends rest) :
    Yields (.ok (.condition test.node yes.node (some no.node), rest))
      (readConditional (.finished p) (fuel + 1) (ts ++ (ws ++ (us ++ t :: (vs ++ rest))))) := by
  have hEnd : yes.edge.Ends (t :: (vs ++ rest)) := by
    have hStops : Stops 0 (t :: (vs ++ rest)) :=
      stops_cons (by simp [Token.isMark, hNate]) (by simp [Token.chainOp?, hNate]) 0 _
    exact ⟨hStops.noArguments, fun _ => hStops, fun hDangling => absurd hDangling hPaired⟩
  refine h.branches hTest (hBridge.append _) ?_
  refine (h.expression hYes hEnd).andThen ?_
  rw [readOtherwise_eq, look, otherwiseMove, if_pos (Token.isKeyword_iff.mpr hNate), Move.go]
  refine (h.expression hNo hEnds).andThen ?_
  exact .refl _

theorem Complete.function_succ (h : Complete p fuel) {o c : Token} {ts us : List Token}
    {params : List String} {body : Reading} {rest : List Token} (hOpen : o.kind = .punctuation '(')
    (hParams : Listed Name ',' ts params) (hClose : c.kind = .punctuation ')')
    (hBody : Expression us body) (hEnds : body.edge.Ends rest) :
    Yields (.ok (.lambda params body.node, rest))
      (readFunction (.finished p) (fuel + 1) (o :: (ts ++ c :: (us ++ rest)))) := by
  have hMark : Yields (.ok ((), ts ++ c :: (us ++ rest)))
      (takeMark (.finished p) '(' (o :: (ts ++ c :: (us ++ rest)))) :=
    Or.inl (takeMark_eq_ok.mpr ⟨o, rfl, hOpen⟩)
  have hNames : Yields (.ok (params.map id, us ++ rest)) (readItems (.finished p)
      (takeName (.finished p)) ',' ')' fuel true (ts ++ c :: (us ++ rest))) := by
    refine readItems_listed (by decide) ?_ ?_ hParams hClose (us ++ rest) fuel
    · rintro _ word t vs ⟨s, rfl, hName⟩ _
      exact Or.inl (takeName_eq_ok.mpr ⟨s, rfl, hName⟩)
    · rintro _ word vs ⟨s, rfl, hName⟩
      simp [Token.isMark, hName]
  rw [List.map_id] at hNames
  rw [readFunction_eq]
  refine hMark.andThen ?_
  refine hNames.andThen ?_
  refine (h.expression hBody hEnds).andThen ?_
  exact .refl _

theorem complete_succ (h : Complete p fuel) : Complete p (fuel + 1) where
  expression := h.expression_succ
  chain := h.chain_succ
  arguments := h.arguments_succ
  operand := h.operand_succ
  closed := h.closed_succ
  loose := h.loose_succ
  conditional := h.conditional_succ
  otherwise := h.otherwise_succ
  function := h.function_succ

end Step

/-- Without fuel every reader is cut off. -/
theorem complete_zero (p : Position) : Complete p 0 where
  expression _ _ := Or.inr rfl
  chain _ _ _ _ := Or.inl rfl
  arguments _ _ := Or.inr rfl
  operand _ _ := Or.inr rfl
  closed _ hClosed := by cases hClosed <;> exact Or.inr rfl
  loose hOperand _ _ := by
    obtain ⟨t, us, rfl, -⟩ := hOperand.opens
    exact Or.inr rfl
  conditional _ _ _ _ := Or.inr rfl
  otherwise _ _ _ _ _ _ _ := Or.inr rfl
  function _ _ _ _ _ := Or.inr rfl

/-- **The readers take the phrases of the ordered grammar for their trees**, with any amount of
fuel. -/
theorem complete_readers (p : Position) (fuel : Nat) : Complete p fuel := by
  induction fuel with
  | zero => exact complete_zero p
  | succ fuel ih => exact complete_succ ih

-- ----------------------------------------------------------------------------
-- Programs
-- ----------------------------------------------------------------------------

/-- A program that is read is one of the ordered grammar. -/
theorem readProgram_sound {fin : Ending} {fuel : Nat} {ts rest : List Token} {ns : List Node}
    (h : readProgram fin fuel ts = .ok (ns, rest)) :
    ∃ xs : List Reading, ns = xs.map Reading.node ∧ Listed Expression ';' ts xs := by
  induction fuel generalizing ts ns with
  | zero => cases h
  | succ fuel ih =>
    rcases readProgram_cases h with
      ⟨rfl, rfl, -⟩ | ⟨n, hRead, rfl, -⟩ | ⟨n, t, vs, ns, hRead, hMark, hMore, rfl⟩
    · exact ⟨[], rfl, .nil⟩
    · obtain ⟨taken, e, rfl, hExpression, -⟩ := (sound_readers fin fuel).expression hRead
      rw [List.append_nil]
      exact ⟨[⟨n, e⟩], rfl, .last hExpression⟩
    · obtain ⟨taken, e, rfl, hExpression, -⟩ := (sound_readers fin fuel).expression hRead
      obtain ⟨xs, rfl, hRest⟩ := ih hMore
      exact ⟨⟨n, e⟩ :: xs, rfl, .cons hExpression hMark hRest⟩

/-- A program of the ordered grammar is read, up to the end of the text. -/
theorem readProgram_complete {p : Position} {ts : List Token} {xs : List Reading}
    (h : Listed Expression ';' ts xs) (fuel : Nat) :
    Yields (.ok (xs.map Reading.node, [])) (readProgram (.finished p) fuel ts) := by
  induction h generalizing fuel with
  | nil =>
    cases fuel with
    | zero => exact Or.inr rfl
    | succ fuel => exact Or.inl rfl
  | last hExpression =>
    cases fuel with
    | zero => exact Or.inr rfl
    | succ fuel =>
      obtain ⟨t, us, rfl, -⟩ := hExpression.opens
      have hRead := (complete_readers p fuel).expression hExpression (ends_of_halts halts_nil _)
      rw [List.append_nil] at hRead
      rw [readProgram_eq, look, Move.go]
      refine hRead.andThen ?_
      exact .refl _
  | @cons ts us s x xs hExpression hMark _ ih =>
    cases fuel with
    | zero => exact Or.inr rfl
    | succ fuel =>
      obtain ⟨t, vs, rfl, -⟩ := hExpression.opens
      have hRead := (complete_readers p fuel).expression hExpression
        (ends_of_halts (halts_of_mark us hMark (by decide)) _)
      exact hRead.program (by simp) hMark (ih fuel)

/-- A program of the ordered grammar has the tree that the grammar gives it. -/
theorem Program.parse_eq {ts : List Token} {n : Node} (h : Program ts n) (p : Position) :
    (Scan.mk ts (.finished p)).parse = .ok n := by
  obtain ⟨hBody⟩ := h
  refine Scan.parse_eq_ok_iff.mpr ?_
  rcases readProgram_complete hBody (parseFuel ts.length) with hRead | hRead
  · exact hRead
  · exact absurd hRead (Scan.read_ne_outOfFuel ⟨ts, .finished p⟩)

theorem parse_eq_ok_iff {source : String} {p : Position}
    (hEnd : (scan source).ending = .finished p) {n : Node} :
    parse source = .ok n ↔ Program (scan source).tokens n := by
  constructor
  · intro h
    have hProgram := program_of_parse h
    cases hProgram with
    | body hBody =>
      obtain ⟨xs, rfl, hListed⟩ := readProgram_sound (Scan.parse_eq_ok_iff.mp h)
      exact .body hListed
  · intro hProgram
    have hParse := hProgram.parse_eq p
    rwa [← hEnd] at hParse

end Ordered

-- ----------------------------------------------------------------------------
-- Climbing
-- ----------------------------------------------------------------------------

/-- With enough fuel, a reader of expressions is not cut off. -/
theorem readExpression_ne_outOfFuel {fin : Ending} {fuel : Nat} {ts : List Token}
    (hFuel : 4 * ts.length + 4 ≤ fuel) : readExpression fin fuel ts ≠ .error .outOfFuel := by
  intro hOut
  have hLasts := (sated_readers fin fuel).expression hFuel ts (Nat.le_refl _)
  rw [hOut] at hLasts
  exact hLasts rfl

namespace Ordered

/-- An expression of the ordered grammar is read, in front of what ends it. -/
theorem readExpression_eq_ok {p : Position} {fuel : Nat} {ts rest : List Token} {x : Reading}
    (h : Expression ts x) (hEnds : x.edge.Ends rest)
    (hFuel : 4 * (ts ++ rest).length + 4 ≤ fuel) :
    readExpression (.finished p) fuel (ts ++ rest) = .ok (x.node, rest) := by
  rcases (complete_readers p fuel).expression h hEnds with hRead | hRead
  · exact hRead
  · exact absurd hRead (readExpression_ne_outOfFuel hFuel)

/-- A function or a conditional could go on, and a conditional without a second branch could go on
with one. -/
theorem Operand.edge_of_word {k : Token} {us : List Token} {n : Node} {e : Edge}
    (h : Operand (k :: us) n e) (hWord : k.OpensFunction ∨ k.kind = .keyword .yeli) :
    e ≠ .tight ∧ ∀ test yes, n = .condition test yes none → e = .dangling := by
  generalize hTs : k :: us = ts at h
  cases h with
  | tight hClosed _ =>
    -- no closed operand opens with such a word
    exfalso
    cases hClosed with
    | leaf hLeaf =>
      obtain ⟨rfl, -⟩ := List.cons.inj hTs
      rcases hWord with (hWord | hWord) | hWord <;> simp [Token.leaf?, hWord] at hLeaf
    | group hOpen | block hOpen =>
      obtain ⟨rfl, -⟩ := List.cons.inj hTs
      rcases hWord with (hWord | hWord) | hWord <;> simp [hWord] at hOpen
  | function _ _ _ _ hBody =>
    refine ⟨hBody.edge_ne_tight, ?_⟩
    rintro _ _ ⟨⟩
  | conditional => exact ⟨by decide, fun _ _ _ => rfl⟩
  | otherwise _ _ _ _ _ _ hNo =>
    refine ⟨hNo.edge_ne_tight, ?_⟩
    rintro _ _ ⟨⟩

end Ordered

/--
**Precedence climbing builds the one right tree.** A chain of operands, of
which only the last may be a function or a conditional, is read as the one
ranked tree of its operands and operators.

A function or a conditional that is read as an operand leaves neither an
operator nor an argument list behind it, and a conditional without a second
branch leaves no `nate`: whatever could go on behind it is part of it. So the
reader of expressions gives exactly the expressions of the ordered grammar, each
in front of what ends it, and a text that was scanned to its end has exactly the
tree that this grammar gives it.
-/
theorem climbing_builds_ranked_tree (p : Position) :
    (∀ ts first xs e rest fuel, Ordered.Chain Ordered.Operand ts first xs e →
      e.opened.Ends rest → 4 * (ts ++ rest).length + 4 ≤ fuel →
      ∃ tree : ChainTree,
        (∀ t : ChainTree, (t.first = first ∧ t.rest = xs ∧ t.Ranked) ↔ t = tree) ∧
        readExpression (.finished p) fuel (ts ++ rest) = .ok (tree.node, rest)) ∧
    (∀ k ts n rest fuel, k.OpensFunction ∨ k.kind = .keyword .yeli →
      readOperand (.finished p) fuel (k :: ts) = .ok (n, rest) →
      Stops 0 rest ∧ ∀ test yes, n = .condition test yes none →
        ∀ t us, rest = t :: us → t.kind ≠ .keyword .nate) ∧
    (∀ ts n rest fuel, 4 * ts.length + 4 ≤ fuel →
      (readExpression (.finished p) fuel ts = .ok (n, rest) ↔
        ∃ taken e, ts = taken ++ rest ∧ Ordered.Expression taken ⟨n, e⟩ ∧ e.Ends rest)) ∧
    (∀ source, (scan source).ending = .finished p →
      ∀ n, parse source = .ok n ↔ Ordered.Program (scan source).tokens n) := by
  refine ⟨?_, ?_, ?_, ?_⟩
  · intro ts first xs e rest fuel hChain hEnds hFuel
    obtain ⟨tree, ⟨rfl, rfl, hRanked⟩, hUnique⟩ := ChainTree.existsUnique_ranked first xs
    refine ⟨tree, fun t => ⟨hUnique t, ?_⟩, ?_⟩
    · rintro rfl
      exact ⟨rfl, rfl, hRanked⟩
    · exact Ordered.readExpression_eq_ok (.grouped hChain hRanked) hEnds hFuel
  · intro k ts n rest fuel hWord hRead
    obtain ⟨taken, e, hEq, hOperand, hEnds⟩ := (Ordered.sound_readers _ _).operand hRead
    obtain ⟨t, us, rfl, -⟩ := hOperand.opens
    obtain ⟨rfl, -⟩ := List.cons.inj hEq
    obtain ⟨hLoose, hDangling⟩ := hOperand.edge_of_word hWord
    exact ⟨hEnds.noOperator hLoose, fun test yes hNode => hEnds.noElse (hDangling test yes hNode)⟩
  · intro ts n rest fuel hFuel
    constructor
    · intro hRead
      obtain ⟨taken, e, hEq, hExpression, hEnds, -⟩ := (Ordered.sound_readers _ _).expression hRead
      exact ⟨taken, e, hEq, hExpression, hEnds⟩
    · rintro ⟨taken, e, rfl, hExpression, hEnds⟩
      exact Ordered.readExpression_eq_ok hExpression hEnds hFuel
  · intro source hEnd n
    exact Ordered.parse_eq_ok_iff hEnd

/-- The tokens of a difference whose second operand is a product. -/
def differenceTokens : List Token :=
  [⟨.name "a", ⟨1, 0⟩⟩, ⟨.operator "-", ⟨1, 2⟩⟩, ⟨.name "b", ⟨1, 4⟩⟩, ⟨.operator "*", ⟨1, 6⟩⟩,
    ⟨.name "c", ⟨1, 8⟩⟩]

/-- The product is the right operand of the difference; and a text with two functions and a
conditional inside one another has its tree by the ordered grammar. -/
theorem climbing_builds_ranked_tree_difference :
    readExpression (.finished ⟨1, 9⟩) 30 differenceTokens =
        .ok (.binary .minus (.var "a") (.binary .times (.var "b") (.var "c")), []) ∧
      ∃ n, parse "a = λ() b + yeli c teli λ() d nate e * f = g" = .ok n ∧
        Ordered.Program (scan "a = λ() b + yeli c teli λ() d nate e * f = g").tokens n := by
  constructor
  · have hName : ∀ t word, t.kind = .name word → Ordered.Operand [t] (.var word) .tight := by
      intro t word hKind
      exact .tight (.leaf (by simp [Token.leaf?, hKind])) .none
    have hChain : Ordered.Chain Ordered.Operand differenceTokens (.var "a")
        [(.compute .minus, .var "b"), (.compute .times, .var "c")] .tight :=
      .link (hName _ _ rfl) rfl (.link (hName _ _ rfl) rfl (.last (hName _ _ rfl)))
    obtain ⟨tree, hTree, hRead⟩ := (climbing_builds_ranked_tree ⟨1, 9⟩).1 differenceTokens _ _ _ []
      30 hChain (Ordered.ends_of_halts Grammar.halts_nil _) (by decide)
    have hSame := (hTree (.join (.compute .minus) (.operand (.var "a"))
      (.join (.compute .times) (.operand (.var "b")) (.operand (.var "c"))))).mp
        ⟨rfl, rfl, by
          simp [ChainTree.Ranked, ChainTree.top?, ChainOp.precedence, BinaryOp.precedence]⟩
    rw [← hSame] at hRead
    exact hRead
  · have hEnd : (scan "a = λ() b + yeli c teli λ() d nate e * f = g").ending =
        .finished ⟨1, 44⟩ := rfl
    have hOk : (parse "a = λ() b + yeli c teli λ() d nate e * f = g").toOption.isSome = true := by
      decide +kernel
    cases hParse : parse "a = λ() b + yeli c teli λ() d nate e * f = g" with
    | error e =>
      rw [hParse] at hOk
      cases hOk
    | ok n => exact ⟨n, rfl, ((climbing_builds_ranked_tree ⟨1, 44⟩).2.2.2 _ hEnd n).mp hParse⟩

end Zaban
