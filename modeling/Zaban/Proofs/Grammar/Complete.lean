import Zaban.Proofs.Grammar.Sound

/-!
# What the readers do not refuse

The readers are greedy: a branch or a body takes every operator, argument list
and `nate` that it can. A derivation may have put them elsewhere, so a reader
need not follow the derivation of the tokens it reads. It succeeds all the
same, and the reason is a count.

A **spine** reads a token list from left to right as the readers do, and keeps
only the number of conditionals that are still **pending**, that is without
their second branch. An operator, an argument list or the end of a branch does
not change the number, `yeli` adds one, and `nate` needs one and takes it away.
Which of the pending conditionals gets the branch does not matter to the
number, and this is why greed is harmless:

* `Expression.spine` — every expression is a spine, in front of whatever is
  one with at least the conditionals that the expression leaves pending;
* `Complete` — a reader in front of a spine succeeds, and leaves a spine with
  the conditionals that were pending before it began.

With none pending the spine can only have been read to where it stops, which
is how `readExpression_exact` knows what is left. The readers need about four
units of fuel for each token (`complete_readers`).
-/

namespace Zaban

namespace Grammar

-- ----------------------------------------------------------------------------
-- Spines
-- ----------------------------------------------------------------------------

/-- Where a reader of a chain stands. -/
inductive Place where
  /-- An operand comes next. -/
  | before
  /-- An operand has been read. -/
  | behind

/-- What can be read from a place with some conditionals pending, up to where `stop` is left. -/
inductive Spine (stop : List Token) : Place → (pending : Nat) → List Token → Prop where
  | leaf {t : Token} {n : Node} {ts : List Token} {j : Nat}
      (hLeaf : t.leaf? = some n) (hRest : Spine stop .behind j ts) :
      Spine stop .before j (t :: ts)
  | group {o c : Token} {us ts : List Token} {n : Node} {j : Nat}
      (hOpen : o.kind = .punctuation '(') (hInner : Expression us n)
      (hClose : c.kind = .punctuation ')') (hRest : Spine stop .behind j ts) :
      Spine stop .before j (o :: (us ++ c :: ts))
  | block {o c : Token} {us ts : List Token} {body : List Node} {j : Nat}
      (hOpen : o.kind = .punctuation '{') (hBody : Listed Expression ';' us body)
      (hClose : c.kind = .punctuation '}') (hRest : Spine stop .behind j ts) :
      Spine stop .before j (o :: (us ++ c :: ts))
  | conditional {k : Token} {us ws ts : List Token} {test : Node} {j : Nat}
      (hWord : k.kind = .keyword .yeli) (hTest : Expression us test) (hBridge : Bridge ws ts)
      (hRest : Spine stop .before (j + 1) ts) :
      Spine stop .before j (k :: (us ++ (ws ++ ts)))
  | function {k o c : Token} {us ts : List Token} {params : List String} {j : Nat}
      (hWord : k.OpensFunction) (hOpen : o.kind = .punctuation '(')
      (hParams : Listed Name ',' us params) (hClose : c.kind = .punctuation ')')
      (hRest : Spine stop .before j ts) :
      Spine stop .before j (k :: o :: (us ++ c :: ts))
  | join {t : Token} {op : ChainOp} {ts : List Token} {j : Nat}
      (hOp : t.chainOp? = some op) (hRest : Spine stop .before j ts) :
      Spine stop .behind j (t :: ts)
  | call {o c : Token} {us ts : List Token} {args : List Node} {j : Nat}
      (hOpen : o.kind = .punctuation '(') (hArgs : Listed Expression ',' us args)
      (hClose : c.kind = .punctuation ')') (hRest : Spine stop .behind j ts) :
      Spine stop .behind j (o :: (us ++ c :: ts))
  | otherwise {t : Token} {ts : List Token} {j : Nat}
      (hWord : t.kind = .keyword .nate) (hRest : Spine stop .before j ts) :
      Spine stop .behind (j + 1) (t :: ts)
  | stop {j : Nat} : Spine stop .behind j stop

/-- The tokens are a spine in front of every spine with enough conditionals pending. -/
def Extends (ts : List Token) (_ : Node) : Prop :=
  ∃ pending, ∀ {stop : List Token} {j : Nat} {us : List Token},
    Spine stop .behind (j + pending) us → Spine stop .before j (ts ++ us)

/-- What a branch that opens with a brace is followed by does not matter to its first token. -/
theorem Bridge.append {ws us : List Token} (h : Bridge ws us) (vs : List Token) :
    Bridge ws (us ++ vs) := by
  rcases h with hTeli | ⟨rfl, hBrace⟩
  · exact Or.inl hTeli
  · obtain ⟨t, ts, rfl, hKind⟩ := nextIs_iff.mp hBrace
    exact Or.inr ⟨rfl, Token.isMark_iff.mpr hKind⟩

theorem Tail.spine {ts : List Token} {xs : List (ChainOp × Node)}
    (h : Tail (Both Operand Extends) ts xs) :
    ∃ pending, ∀ {stop : List Token} {j : Nat} {us : List Token},
      Spine stop .behind (j + pending) us → Spine stop .behind j (ts ++ us) := by
  induction h with
  | nil => exact ⟨0, fun hUs => hUs⟩
  | cons hOp hOperand _ ih =>
    obtain ⟨-, p, hOperand⟩ := hOperand
    obtain ⟨q, hRest⟩ := ih
    refine ⟨p + q, fun hUs => ?_⟩
    rw [← Nat.add_assoc] at hUs
    rw [List.append_assoc]
    exact .join hOp (hOperand (hRest hUs))

/-- The second branch takes one of the conditionals that are pending behind the first. -/
theorem conditional_extends {k : Token} {ts ws us vs : List Token} {test yes : Node}
    {no : Option Node} (hWord : k.kind = .keyword .yeli) (hTest : Expression ts test)
    (hBridge : Bridge ws us) (hYes : Extends us yes)
    (hNo : Otherwise (Both Expression Extends) vs no) :
    Extends (k :: (ts ++ (ws ++ (us ++ vs)))) (.condition test yes no) := by
  obtain ⟨p, hYes⟩ := hYes
  cases hNo with
  | absent =>
    refine ⟨p + 1, fun {stop j rest} hRest => ?_⟩
    have hPending : j + (p + 1) = j + 1 + p := by omega
    rw [hPending] at hRest
    have hSpine := Spine.conditional hWord hTest (hBridge.append rest) (hYes hRest)
    simpa using hSpine
  | @present t ts' n hNate hBranch =>
    obtain ⟨-, q, hBranch⟩ := hBranch
    refine ⟨p + q, fun {stop j rest} hRest => ?_⟩
    have hPending : j + 1 + p = j + p + 1 := by omega
    rw [← Nat.add_assoc] at hRest
    have hElse : Spine stop .behind (j + 1 + p) (t :: (ts' ++ rest)) :=
      hPending ▸ Spine.otherwise hNate (hBranch hRest)
    have hSpine := Spine.conditional hWord hTest (hBridge.append _) (hYes hElse)
    simpa using hSpine

/-- **Every expression is a spine**, by whichever derivation it is an expression. -/
theorem Expression.spine {ts : List Token} {n : Node} (h : Expression ts n) : Extends ts n := by
  refine derives_induction (E := Extends) (O := Extends) (P := Extends) ?_ h
  exact {
    chain := by
      rintro ts us first n rest ⟨-, p, hFirst⟩ hTail -
      obtain ⟨q, hTail⟩ := hTail.spine
      refine ⟨p + q, fun hUs => ?_⟩
      rw [← Nat.add_assoc] at hUs
      rw [List.append_assoc]
      exact hFirst (hTail hUs)
    primary := fun hPrimary => hPrimary.2
    call := by
      rintro ts us o c callee args ⟨-, p, hCallee⟩ hOpen hArgs hClose
      refine ⟨p, fun hUs => ?_⟩
      have hCall := Spine.call hOpen (hArgs.imp fun _ _ hItem => hItem.1) hClose hUs
      simpa using hCallee hCall
    leaf := fun hLeaf => ⟨0, fun hUs => .leaf hLeaf hUs⟩
    group := fun hOpen hInner hClose =>
      ⟨0, fun hUs => by simpa using Spine.group hOpen hInner.1 hClose hUs⟩
    block := fun hOpen hBody hClose => ⟨0, fun hUs => by
      simpa using Spine.block hOpen (hBody.imp fun _ _ hItem => hItem.1) hClose hUs⟩
    conditional := fun hWord hTest hBridge hYes hNo =>
      conditional_extends hWord hTest.1 hBridge hYes.2 hNo
    function := by
      rintro k o c ts us params body hWord hOpen hParams hClose ⟨-, p, hBody⟩
      refine ⟨p, fun hUs => ?_⟩
      simpa using Spine.function hWord hOpen hParams hClose (hBody hUs) }

-- ----------------------------------------------------------------------------
-- Where spines stop
-- ----------------------------------------------------------------------------

/-- Nothing comes next that an expression could go on with. -/
structure Halts (ts : List Token) : Prop where
  stops  : Stops 0 ts
  noElse : ∀ t us, ts = t :: us → t.kind ≠ .keyword .nate

theorem halts_nil : Halts [] :=
  ⟨stops_nil 0, by rintro _ _ ⟨⟩⟩

/-- A token of another kind than operators, brackets and `nate` halts an expression. -/
theorem halts_cons {t : Token} (ts : List Token) (hOp : t.chainOp? = none)
    (hOpen : t.kind ≠ .punctuation '(') (hElse : t.kind ≠ .keyword .nate) : Halts (t :: ts) := by
  refine ⟨⟨?_, ?_⟩, ?_⟩
  · rw [nextIs_cons, Bool.eq_false_iff]
    exact fun hMark => hOpen (Token.isMark_iff.mp hMark)
  · intro u us op hEq hOp'
    obtain ⟨rfl, rfl⟩ := List.cons.inj hEq
    rw [hOp] at hOp'
    cases hOp'
  · intro u us hEq
    obtain ⟨rfl, rfl⟩ := List.cons.inj hEq
    exact hElse

theorem halts_of_mark {t : Token} {mark : Char} (ts : List Token)
    (hKind : t.kind = .punctuation mark) (h : mark ≠ '(') : Halts (t :: ts) :=
  halts_cons ts (by simp [Token.chainOp?, hKind]) (by simpa [hKind] using h) (by simp [hKind])

theorem Bridge.halts {ws us : List Token} (h : Bridge ws us) : Halts (ws ++ us) := by
  rcases h with ⟨t, rfl, hTeli⟩ | ⟨rfl, hBrace⟩
  · exact halts_cons us (by simp [Token.chainOp?, hTeli]) (by simp [hTeli]) (by simp [hTeli])
  · obtain ⟨t, ts, rfl, hKind⟩ := nextIs_iff.mp hBrace
    exact halts_of_mark ts hKind (by decide)

/-- With no conditional pending, a spine that cannot go on has come to its stop. -/
theorem Spine.eq_stop {stop ts : List Token} (h : Spine stop .behind 0 ts) (hStops : Stops 0 ts) :
    ts = stop := by
  cases h with
  | join hOp =>
    rw [hStops.chainOp?_eq_none] at hOp
    cases hOp
  | call hOpen =>
    have hMark := hStops.noArguments
    rw [nextIs_cons, Token.isMark_iff.mpr hOpen] at hMark
    cases hMark
  | stop => rfl

end Grammar

-- ----------------------------------------------------------------------------
-- Lists
-- ----------------------------------------------------------------------------

open Grammar

section Items

variable {α β : Type} {fin : Ending} {item : List Token → Outcome (Phrase α)}
  {phrase : List Token → β → Prop} {separator stop : Char}

/-- Behind a separator that is not the last token, a list goes on as it began. -/
theorem readItems_separator (hDiff : separator ≠ stop) {t : Token}
    (hMark : t.kind = .punctuation separator) {ts : List Token} (hTs : ts ≠ []) (fuel : Nat) :
    readItems fin item separator stop (fuel + 1) false (t :: ts) =
      readItems fin item separator stop (fuel + 1) true ts := by
  have hStop : nextIs stop (t :: ts) = false := by
    rw [nextIs_cons, Bool.eq_false_iff]
    intro hStop
    rw [Token.isMark_iff, hMark] at hStop
    exact hDiff (TokenKind.punctuation.inj hStop)
  have hTake : takeMark fin separator (t :: ts) = .ok ((), ts) :=
    takeMark_eq_ok.mpr ⟨t, rfl, hMark⟩
  have hEmpty : ts.isEmpty = false := by
    cases ts with
    | nil => exact absurd rfl hTs
    | cons => rfl
  rw [readItems, readItems, hStop, hEmpty]
  simp only [List.isEmpty_cons, Bool.false_eq_true, if_false, hTake, if_true]
  by_cases hNext : nextIs stop ts = true
  · simp [hNext, bind, Except.bind, pure, Except.pure]
  · simp [hNext, bind, Except.bind, pure, Except.pure]

/-- The closing mark ends a list wherever it comes next. -/
theorem readItems_stop {c : Token} (hClose : c.kind = .punctuation stop) (rest : List Token)
    (first : Bool) (fuel : Nat) :
    readItems fin item separator stop (fuel + 1) first (c :: rest) = .ok ([], rest) := by
  have hStop : nextIs stop (c :: rest) = true := Token.isMark_iff.mpr hClose
  rw [readItems, hStop]
  simp

/-- A list of the grammar in front of its closing mark is read, if its items are. -/
theorem readItems_complete {bound : Nat} (hDiff : separator ≠ stop)
    (hItem : ∀ {ts b t us}, phrase ts b → (ts ++ t :: us).length ≤ bound →
      (t.kind = .punctuation separator ∨ t.kind = .punctuation stop) →
      ∃ a, item (ts ++ t :: us) = .ok (a, t :: us))
    (hFirst : ∀ {ts b us}, phrase ts b → ts ≠ [] ∧ nextIs stop (ts ++ us) = false)
    {ts : List Token} {bs : List β} (h : Listed phrase separator ts bs) {c : Token}
    (hClose : c.kind = .punctuation stop) (rest : List Token) {fuel : Nat}
    (hBound : (ts ++ c :: rest).length ≤ bound) (hFuel : ts.length < fuel) :
    ∃ as, readItems fin item separator stop fuel true (ts ++ c :: rest) = .ok (as, rest) := by
  -- an item that is read leaves the rest of the list to be read with less fuel
  have hStep : ∀ {ts b t us r fuel}, phrase ts b → (ts ++ t :: us).length ≤ bound →
      (t.kind = .punctuation separator ∨ t.kind = .punctuation stop) →
      (∃ as, readItems fin item separator stop fuel false (t :: us) = .ok (as, r)) →
      ∃ as, readItems fin item separator stop (fuel + 1) true (ts ++ t :: us) = .ok (as, r) := by
    rintro ts b t us r fuel hPhrase hLength hKind ⟨as, hRest⟩
    obtain ⟨a, hRead⟩ := hItem hPhrase hLength hKind
    obtain ⟨-, hStop⟩ := @hFirst ts b (t :: us) hPhrase
    refine ⟨a :: as, ?_⟩
    rw [readItems, hStop]
    simp [hStop, hRead, hRest, bind, Except.bind, pure, Except.pure]
  induction h generalizing fuel with
  | nil =>
    obtain ⟨fuel, rfl⟩ : ∃ f, fuel = f + 1 := ⟨fuel - 1, by simp at hFuel; omega⟩
    exact ⟨[], readItems_stop hClose rest true fuel⟩
  | @last ts b hPhrase =>
    have hLength := List.length_pos_iff.mpr (@hFirst ts b [] hPhrase).1
    obtain ⟨fuel, rfl⟩ : ∃ f, fuel = f + 1 + 1 := ⟨fuel - 2, by omega⟩
    exact hStep hPhrase hBound (Or.inr hClose) ⟨[], readItems_stop hClose rest false fuel⟩
  | @cons ts us t b bs hPhrase hMark _ ih =>
    have hLength := List.length_pos_iff.mpr (@hFirst ts b [] hPhrase).1
    simp only [List.length_append, List.length_cons] at hFuel hBound
    obtain ⟨fuel, rfl⟩ : ∃ f, fuel = f + 1 + 1 := ⟨fuel - 2, by omega⟩
    have hMore := @ih (fuel + 1)
      (by simp only [List.length_append, List.length_cons]; omega) (by omega)
    rw [← readItems_separator hDiff hMark (by simp) fuel] at hMore
    rw [List.append_assoc, List.cons_append]
    refine hStep hPhrase ?_ (Or.inl hMark) hMore
    simp only [List.length_append, List.length_cons]
    omega

end Items

-- ----------------------------------------------------------------------------
-- The readers
-- ----------------------------------------------------------------------------

/-- What every reader does in front of a spine, with one amount of fuel: it succeeds, and leaves a
spine with as many conditionals pending as there were. -/
structure Complete (p : Position) (fuel : Nat) : Prop where
  expression : ∀ {stop ts j}, Halts stop → Spine stop .before j ts → 4 * ts.length + 4 ≤ fuel →
    ∃ n rest, readExpression (.finished p) fuel ts = .ok (n, rest) ∧ Spine stop .behind j rest
  chain : ∀ threshold left {stop ts j}, Halts stop → Spine stop .behind j ts →
    nextIs '(' ts = false → 4 * ts.length + 1 ≤ fuel →
    ∃ n rest, readChain (.finished p) fuel threshold left ts = .ok (n, rest) ∧
      Spine stop .behind j rest
  arguments : ∀ callee {stop ts j}, Halts stop → Spine stop .behind j ts →
    4 * ts.length + 1 ≤ fuel →
    ∃ n rest, readArguments (.finished p) fuel callee ts = .ok (n, rest) ∧
      Spine stop .behind j rest
  operand : ∀ {stop ts j}, Halts stop → Spine stop .before j ts → 4 * ts.length + 3 ≤ fuel →
    ∃ n rest, readOperand (.finished p) fuel ts = .ok (n, rest) ∧ Spine stop .behind j rest
  atom : ∀ {stop t ts j}, Halts stop → Spine stop .before j (t :: ts) →
    4 * ts.length + 6 ≤ fuel →
    ∃ n rest, readAtom (.finished p) fuel t ts = .ok (n, rest) ∧ Spine stop .behind j rest
  conditional : ∀ {stop us ws ts j test}, Halts stop → Expression us test → Bridge ws ts →
    Spine stop .before (j + 1) ts → 4 * (us ++ (ws ++ ts)).length + 5 ≤ fuel →
    ∃ n rest, readConditional (.finished p) fuel (us ++ (ws ++ ts)) = .ok (n, rest) ∧
      Spine stop .behind j rest
  function : ∀ {stop o us c ts j params}, Halts stop → o.kind = .punctuation '(' →
    Listed Name ',' us params → c.kind = .punctuation ')' → Spine stop .before j ts →
    4 * (o :: (us ++ c :: ts)).length + 5 ≤ fuel →
    ∃ n rest, readFunction (.finished p) fuel (o :: (us ++ c :: ts)) = .ok (n, rest) ∧
      Spine stop .behind j rest

section Step

variable {p : Position} {fuel : Nat}

/-- An expression in front of what halts it is read to there, however it was derived. -/
theorem Complete.exact (h : Complete p fuel) {ts stop : List Token} {n : Node}
    (hExpression : Expression ts n) (hHalts : Halts stop)
    (hFuel : 4 * (ts ++ stop).length + 4 ≤ fuel) :
    ∃ m, readExpression (.finished p) fuel (ts ++ stop) = .ok (m, stop) := by
  obtain ⟨pending, hSpine⟩ := hExpression.spine
  have hStart : Spine stop .before 0 (ts ++ stop) := hSpine .stop
  obtain ⟨m, rest, hRead, hRest⟩ := h.expression hHalts hStart hFuel
  obtain ⟨-, -, -, hStops⟩ := (sound_readers _ _).expression hRead
  exact ⟨m, hRest.eq_stop hStops ▸ hRead⟩

/-- A list of expressions in front of its closing mark is read. -/
theorem Complete.items (h : Complete p fuel) {separator stop : Char} (hDiff : separator ≠ stop)
    (hSep : separator ≠ '(') (hParen : stop ≠ '(') (hBrace : stop ≠ '{') {us : List Token}
    {xs : List Node} (hListed : Listed Expression separator us xs) {c : Token}
    (hClose : c.kind = .punctuation stop) (ts : List Token)
    (hFuel : 4 * (us ++ c :: ts).length + 4 ≤ fuel) :
    ∃ as, readItems (.finished p) (readExpression (.finished p) fuel) separator stop fuel true
      (us ++ c :: ts) = .ok (as, ts) := by
  refine readItems_complete hDiff ?_ ?_ hListed hClose ts (Nat.le_refl _) ?_
  · intro vs b t ws hItem hLength hKind
    refine h.exact hItem ?_ (by omega)
    rcases hKind with hKind | hKind
    · exact halts_of_mark ws hKind hSep
    · exact halts_of_mark ws hKind hParen
  · intro vs b ws hItem
    exact ⟨hItem.ne_nil, hItem.nextIs_eq_false hParen hBrace ws⟩
  · simp only [List.length_append, List.length_cons] at hFuel
    omega

theorem Grammar.Operand.length_pos {ts : List Token} {n : Node} (h : Operand ts n) :
    0 < ts.length := by
  cases h with
  | primary hPrimary => cases hPrimary <;> simp
  | call =>
    rw [List.length_append, List.length_cons]
    omega

theorem Complete.expression_succ (h : Complete p fuel) {stop ts : List Token} {j : Nat}
    (hHalts : Halts stop) (hSpine : Spine stop .before j ts)
    (hFuel : 4 * ts.length + 4 ≤ fuel + 1) :
    ∃ n rest, readExpression (.finished p) (fuel + 1) ts = .ok (n, rest) ∧
      Spine stop .behind j rest := by
  obtain ⟨first, us, hFirst, hBehind⟩ := h.operand hHalts hSpine (by omega)
  obtain ⟨head, rfl, hOperand, hNext⟩ := (sound_readers _ _).operand hFirst
  have hPos := hOperand.length_pos
  rw [List.length_append] at hFuel
  obtain ⟨chain, vs, hChain, hLeft⟩ := h.chain 0 first hHalts hBehind hNext (by omega)
  obtain ⟨tail, xs, rfl, -⟩ := (sound_readers _ _).chain hNext hChain
  rw [List.length_append] at hFuel
  obtain ⟨n, rest, hArgs, hEnd⟩ := h.arguments chain hHalts hLeft (by omega)
  refine ⟨n, rest, ?_, hEnd⟩
  rw [readExpression]
  simp only [bind_eq_ok, Prod.exists]
  exact ⟨first, _, hFirst, chain, _, hChain, hArgs⟩

theorem Complete.chain_succ (h : Complete p fuel) (threshold : Nat) (left : Node)
    {stop ts : List Token} {j : Nat} (hHalts : Halts stop) (hSpine : Spine stop .behind j ts)
    (hNext : nextIs '(' ts = false) (hFuel : 4 * ts.length + 1 ≤ fuel + 1) :
    ∃ n rest, readChain (.finished p) (fuel + 1) threshold left ts = .ok (n, rest) ∧
      Spine stop .behind j rest := by
  -- whatever is no operator ends the chain here
  have hEnd : ∀ {t us}, ts = t :: us → t.chainOp? = none →
      readChain (.finished p) (fuel + 1) threshold left ts = .ok (left, ts) := by
    rintro t us rfl hOp
    simp only [readChain, hOp]
  cases hSpine with
  | @join t op us _ hOp hRest =>
    by_cases hWeak : op.precedence ≤ threshold
    · refine ⟨left, t :: us, ?_, .join hOp hRest⟩
      simp only [readChain, hOp, if_pos hWeak]
    · rw [List.length_cons] at hFuel
      obtain ⟨next, vs, hNextRead, hBehind⟩ := h.operand hHalts hRest (by omega)
      obtain ⟨head, rfl, -, hNext'⟩ := (sound_readers _ _).operand hNextRead
      rw [List.length_append] at hFuel
      obtain ⟨right, ws, hRight, hLeft⟩ :=
        h.chain op.precedence next hHalts hBehind hNext' (by omega)
      obtain ⟨inner, xs, rfl, -, -, hStops⟩ := (sound_readers _ _).chain hNext' hRight
      rw [List.length_append] at hFuel
      obtain ⟨n, rest, hMore, hSpine⟩ :=
        h.chain threshold (op.join left right) hHalts hLeft hStops.noArguments (by omega)
      refine ⟨n, rest, ?_, hSpine⟩
      simp only [readChain, hOp, if_neg hWeak, bind_eq_ok, Prod.exists]
      exact ⟨next, _, hNextRead, right, _, hRight, hMore⟩
  | call hOpen =>
    rw [nextIs_cons, Token.isMark_iff.mpr hOpen] at hNext
    cases hNext
  | otherwise hWord hRest =>
    exact ⟨left, _, hEnd rfl (by simp [Token.chainOp?, hWord]), .otherwise hWord hRest⟩
  | stop =>
    cases stop with
    | nil => exact ⟨left, [], rfl, .stop⟩
    | cons t us => exact ⟨left, t :: us, hEnd rfl hHalts.stops.chainOp?_eq_none, .stop⟩

theorem Complete.arguments_succ (h : Complete p fuel) (callee : Node) {stop ts : List Token}
    {j : Nat} (hHalts : Halts stop) (hSpine : Spine stop .behind j ts)
    (hFuel : 4 * ts.length + 1 ≤ fuel + 1) :
    ∃ n rest, readArguments (.finished p) (fuel + 1) callee ts = .ok (n, rest) ∧
      Spine stop .behind j rest := by
  -- whatever is no opening bracket ends the operand here
  have hEnd : ∀ {t us}, ts = t :: us → t.isMark '(' = false →
      readArguments (.finished p) (fuel + 1) callee ts = .ok (callee, ts) := by
    rintro t us rfl hMark
    simp [readArguments, hMark]
  cases hSpine with
  | @join t op us _ hOp hRest =>
    refine ⟨callee, _, hEnd rfl ?_, .join hOp hRest⟩
    rw [Bool.eq_false_iff]
    intro hMark
    simp [Token.chainOp?, Token.isMark_iff.mp hMark] at hOp
  | @call o c us ts args _ hOpen hArgs hClose hRest =>
    rw [List.length_cons] at hFuel
    obtain ⟨xs, hItems⟩ :=
      h.items (by decide) (by decide) (by decide) (by decide) hArgs hClose ts (by omega)
    rw [List.length_append, List.length_cons] at hFuel
    obtain ⟨n, rest, hMore, hLeft⟩ := h.arguments (.call callee xs) hHalts hRest (by omega)
    refine ⟨n, rest, ?_, hLeft⟩
    simp only [readArguments, Token.isMark_iff.mpr hOpen, if_true, bind_eq_ok, Prod.exists]
    exact ⟨xs, ts, hItems, hMore⟩
  | otherwise hWord hRest =>
    exact ⟨callee, _, hEnd rfl (by simp [Token.isMark, hWord]), .otherwise hWord hRest⟩
  | stop =>
    cases stop with
    | nil => exact ⟨callee, [], rfl, .stop⟩
    | cons t us => exact ⟨callee, t :: us, hEnd rfl hHalts.stops.noArguments, .stop⟩

theorem Complete.operand_succ (h : Complete p fuel) {stop ts : List Token} {j : Nat}
    (hHalts : Halts stop) (hSpine : Spine stop .before j ts)
    (hFuel : 4 * ts.length + 3 ≤ fuel + 1) :
    ∃ n rest, readOperand (.finished p) (fuel + 1) ts = .ok (n, rest) ∧
      Spine stop .behind j rest := by
  obtain ⟨t, us, rfl⟩ : ∃ t us, ts = t :: us := by
    cases hSpine <;> exact ⟨_, _, rfl⟩
  rw [List.length_cons] at hFuel
  obtain ⟨atom, vs, hAtom, hBehind⟩ := h.atom hHalts hSpine (by omega)
  obtain ⟨inner, rfl, -⟩ := (sound_readers _ _).atom hAtom
  rw [List.length_append] at hFuel
  obtain ⟨n, rest, hArgs, hLeft⟩ := h.arguments atom hHalts hBehind (by omega)
  refine ⟨n, rest, ?_, hLeft⟩
  simp only [readOperand, bind_eq_ok, Prod.exists]
  exact ⟨atom, _, hAtom, hArgs⟩

/-- A leaf is an atom by itself. -/
theorem readAtom_leaf {fin : Ending} {t : Token} {n : Node} (hLeaf : t.leaf? = some n)
    (ts : List Token) : readAtom fin (fuel + 1) t ts = .ok (n, ts) := by
  unfold Token.leaf? at hLeaf
  split at hLeaf
  all_goals cases hLeaf
  all_goals simp only [readAtom, *]

theorem Complete.atom_succ (h : Complete p fuel) {stop : List Token} {t : Token}
    {ts : List Token} {j : Nat} (hHalts : Halts stop) (hSpine : Spine stop .before j (t :: ts))
    (hFuel : 4 * ts.length + 6 ≤ fuel + 1) :
    ∃ n rest, readAtom (.finished p) (fuel + 1) t ts = .ok (n, rest) ∧
      Spine stop .behind j rest := by
  cases hSpine with
  | leaf hLeaf hRest => exact ⟨_, ts, readAtom_leaf hLeaf ts, hRest⟩
  | @group o c us ts _ _ hOpen hInner hClose hRest =>
    obtain ⟨m, hRead⟩ := h.exact hInner (halts_of_mark ts hClose (by decide)) (by omega)
    refine ⟨m, ts, ?_, hRest⟩
    simp only [readAtom, hOpen, bind_eq_ok, takeMark_eq_ok, pure_eq_ok, Prod.exists]
    exact ⟨m, _, hRead, (), ts, ⟨c, rfl, hClose⟩, rfl⟩
  | @block o c us ts body _ hOpen hBody hClose hRest =>
    obtain ⟨xs, hItems⟩ :=
      h.items (by decide) (by decide) (by decide) (by decide) hBody hClose ts (by omega)
    refine ⟨blockNode xs, ts, ?_, hRest⟩
    simp only [readAtom, hOpen, bind_eq_ok, pure_eq_ok, Prod.exists]
    exact ⟨xs, ts, hItems, rfl⟩
  | conditional hWord hTest hBridge hRest =>
    obtain ⟨n, rest, hRead, hLeft⟩ := h.conditional hHalts hTest hBridge hRest (by omega)
    exact ⟨n, rest, by simpa only [readAtom, hWord] using hRead, hLeft⟩
  | function hWord hOpen hParams hClose hRest =>
    obtain ⟨n, rest, hRead, hLeft⟩ :=
      h.function hHalts hOpen hParams hClose hRest (by omega)
    refine ⟨n, rest, ?_, hLeft⟩
    rcases hWord with hWord | hWord
    · simpa only [readAtom, hWord] using hRead
    · simpa only [readAtom, hWord] using hRead

/-- The word before the first branch is taken where it stands, and not missed where it does not. -/
theorem readBridge_complete {fin : Ending} {ws us : List Token} (h : Bridge ws us) :
    readBridge fin (ws ++ us) = .ok ((), us) := by
  rcases h with ⟨t, rfl, hTeli⟩ | ⟨rfl, hBrace⟩
  · have hBrace : ¬ nextIs '{' ([t] ++ us) = true := by simp [Token.isMark, hTeli]
    rw [readBridge, if_neg hBrace, takeKeyword_eq_ok]
    exact ⟨t, rfl, hTeli⟩
  · rw [readBridge, List.nil_append, if_pos hBrace]
    rfl

/-- Behind the first branch one more conditional is pending than around it; a `nate` that comes
next takes it away, and without one it stays without a second branch. -/
theorem Complete.otherwise (h : Complete p fuel) (test yes : Node) {stop ts : List Token} {j : Nat}
    (hHalts : Halts stop) (hSpine : Spine stop .behind (j + 1) ts) (hStops : Stops 0 ts)
    (hFuel : 4 * ts.length + 4 ≤ fuel) :
    ∃ n rest, readOtherwise (.finished p) fuel test yes ts = .ok (n, rest) ∧
      Spine stop .behind j rest := by
  cases hSpine with
  | join hOp =>
    rw [hStops.chainOp?_eq_none] at hOp
    cases hOp
  | call hOpen =>
    have hMark := hStops.noArguments
    rw [nextIs_cons, Token.isMark_iff.mpr hOpen] at hMark
    cases hMark
  | @otherwise t us _ hWord hRest =>
    rw [List.length_cons] at hFuel
    obtain ⟨no, rest, hRead, hLeft⟩ := h.expression hHalts hRest (by omega)
    refine ⟨.condition test yes (some no), rest, ?_, hLeft⟩
    simp only [readOtherwise, Token.isKeyword_iff.mpr hWord, if_true, bind_eq_ok, pure_eq_ok,
      Prod.exists]
    exact ⟨no, rest, hRead, rfl⟩
  | stop =>
    cases stop with
    | nil => exact ⟨_, [], rfl, .stop⟩
    | cons t us =>
      have hWord : ¬ t.isKeyword .nate = true := fun hNate =>
        hHalts.noElse t us rfl (Token.isKeyword_iff.mp hNate)
      exact ⟨_, t :: us, by rw [readOtherwise, if_neg hWord]; rfl, .stop⟩

theorem Complete.conditional_succ (h : Complete p fuel) {stop us ws ts : List Token} {j : Nat}
    {test : Node} (hHalts : Halts stop) (hTest : Expression us test) (hBridge : Bridge ws ts)
    (hSpine : Spine stop .before (j + 1) ts)
    (hFuel : 4 * (us ++ (ws ++ ts)).length + 5 ≤ fuel + 1) :
    ∃ n rest, readConditional (.finished p) (fuel + 1) (us ++ (ws ++ ts)) = .ok (n, rest) ∧
      Spine stop .behind j rest := by
  obtain ⟨test', hTestRead⟩ := h.exact hTest hBridge.halts (by omega)
  simp only [List.length_append] at hFuel
  obtain ⟨yes, vs, hYesRead, hBehind⟩ := h.expression hHalts hSpine (by omega)
  obtain ⟨taken, hTaken, -, hStops⟩ := (sound_readers _ _).expression hYesRead
  rw [hTaken, List.length_append] at hFuel
  obtain ⟨n, rest, hNoRead, hLeft⟩ := h.otherwise test' yes hHalts hBehind hStops (by omega)
  refine ⟨n, rest, ?_, hLeft⟩
  simp only [readConditional_succ, bind_eq_ok, Prod.exists]
  exact ⟨test', _, hTestRead, (), ts, readBridge_complete hBridge, yes, vs, hYesRead, hNoRead⟩

theorem Complete.function_succ (h : Complete p fuel) {stop : List Token} {o : Token}
    {us : List Token} {c : Token} {ts : List Token} {j : Nat} {params : List String}
    (hHalts : Halts stop) (hOpen : o.kind = .punctuation '(') (hParams : Listed Name ',' us params)
    (hClose : c.kind = .punctuation ')') (hSpine : Spine stop .before j ts)
    (hFuel : 4 * (o :: (us ++ c :: ts)).length + 5 ≤ fuel + 1) :
    ∃ n rest, readFunction (.finished p) (fuel + 1) (o :: (us ++ c :: ts)) = .ok (n, rest) ∧
      Spine stop .behind j rest := by
  simp only [List.length_append, List.length_cons] at hFuel
  have hNames : ∃ xs, readItems (.finished p) (takeName (.finished p)) ',' ')' fuel true
      (us ++ c :: ts) = .ok (xs, ts) := by
    refine readItems_complete (by decide) ?_ ?_ hParams hClose ts (Nat.le_refl _) (by omega)
    · rintro _ word t vs ⟨s, rfl, hName⟩ _ _
      exact ⟨word, takeName_eq_ok.mpr ⟨s, rfl, hName⟩⟩
    · rintro _ word vs ⟨s, rfl, hName⟩
      exact ⟨by simp, by simp [Token.isMark, hName]⟩
  obtain ⟨xs, hNames⟩ := hNames
  obtain ⟨body, rest, hBody, hLeft⟩ := h.expression hHalts hSpine (by omega)
  refine ⟨.lambda xs body, rest, ?_, hLeft⟩
  simp only [readFunction, bind_eq_ok, takeMark_eq_ok, pure_eq_ok, Prod.exists]
  exact ⟨(), _, ⟨o, rfl, hOpen⟩, xs, ts, hNames, body, rest, hBody, rfl⟩

/-- One more step of the fuel keeps the readers complete. -/
theorem complete_succ (h : Complete p fuel) : Complete p (fuel + 1) where
  expression := h.expression_succ
  chain := h.chain_succ
  arguments := h.arguments_succ
  operand := h.operand_succ
  atom := h.atom_succ
  conditional := h.conditional_succ
  function := h.function_succ

end Step

/-- Without fuel every bound is missed. -/
theorem complete_zero (p : Position) : Complete p 0 where
  expression _ _ hFuel := by omega
  chain _ _ _ _ _ _ _ _ hFuel := by omega
  arguments _ _ _ _ _ _ hFuel := by omega
  operand _ _ hFuel := by omega
  atom _ _ hFuel := by omega
  conditional _ _ _ _ hFuel := by omega
  function _ _ _ _ _ hFuel := by omega

/-- **The readers are complete**, with any amount of fuel: each is told how much it needs. -/
theorem complete_readers (p : Position) (fuel : Nat) : Complete p fuel := by
  induction fuel with
  | zero => exact complete_zero p
  | succ fuel ih => exact complete_succ ih

/-- A list of expressions is read as a program, up to the end of the text. -/
theorem readProgram_complete {p : Position} {ts : List Token} {xs : List Node}
    (h : Listed Expression ';' ts xs) {fuel : Nat} (hFuel : 4 * ts.length + 5 ≤ fuel) :
    ∃ ys, readProgram (.finished p) fuel ts = .ok (ys, []) := by
  induction h generalizing fuel with
  | nil =>
    obtain ⟨fuel, rfl⟩ : ∃ f, fuel = f + 1 := ⟨fuel - 1, by omega⟩
    exact ⟨[], rfl⟩
  | @last ts x hExpression =>
    obtain ⟨fuel, rfl⟩ : ∃ f, fuel = f + 1 := ⟨fuel - 1, by omega⟩
    obtain ⟨t, us, rfl, -⟩ := hExpression.opens
    obtain ⟨y, hRead⟩ := (complete_readers p fuel).exact hExpression halts_nil
      (by rw [List.append_nil]; omega)
    rw [List.append_nil] at hRead
    exact ⟨[y], by simp [readProgram, hRead, bind, Except.bind, Ending.close]⟩
  | @cons ts us s x xs hExpression hMark _ ih =>
    obtain ⟨fuel, rfl⟩ : ∃ f, fuel = f + 1 := ⟨fuel - 1, by omega⟩
    obtain ⟨y, hRead⟩ := (complete_readers p fuel).exact hExpression
      (halts_of_mark us hMark (by decide)) (by omega)
    simp only [List.length_append, List.length_cons] at hFuel
    obtain ⟨ys, hMore⟩ := @ih fuel (by omega)
    obtain ⟨t, vs, rfl, -⟩ := hExpression.opens
    have hTake : takeMark (.finished p) ';' (s :: us) = .ok ((), us) :=
      takeMark_eq_ok.mpr ⟨s, rfl, hMark⟩
    refine ⟨y :: ys, ?_⟩
    rw [List.cons_append] at hRead ⊢
    simp only [readProgram, bind_eq_ok, Prod.exists]
    refine ⟨y, s :: us, hRead, ?_⟩
    simp only [bind_eq_ok, pure_eq_ok, Prod.exists]
    exact ⟨(), us, hTake, ys, [], hMore, rfl⟩

end Zaban
