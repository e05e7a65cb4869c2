import Zaban.Proofs.Grammar.Readers

/-!
# One token of look-ahead

A reader that stops in front of a token has seen the tokens before it and that
token, and of these only the kinds. It stops there with a **verdict**: it gives
a phrase, or it refuses the token. `Foresees` says that the verdict stands
whatever comes behind the token, wherever in the text the tokens stand and
however the scan ended: a second reader that is given tokens of the same kinds
reaches the same verdict at the same place.

The second reader may have less fuel than the first, and then may run out of
it; that is the only other thing that can happen (`Yields`). A reader that ran
into the end of the tokens has no verdict, and nothing is said of it.

The property is proved for the parts of `Zaban.Proofs.Grammar.Readers` and for
the two ways of putting them together (`Foresees.andThen`, `foresees_look`);
`foreseeing_readers` and `readProgram_foresees` are the inductions on the fuel.
-/

namespace Zaban

open Reader

/-- The outcome is `o`, or the recursion was cut off. -/
def Yields {α : Type} (o : Outcome α) (outcome : Outcome α) : Prop :=
  outcome = o ∨ outcome = .error .outOfFuel

/-- How a reader stops in front of a token. -/
inductive Verdict (α : Type) where
  | phrase (a : α)
  | refusal (expected : Expected)

/-- The outcome of a reader that stops in front of `t`, with the tokens `ts` behind it. -/
def Verdict.at {α : Type} (v : Verdict α) (t : Token) (ts : List Token) : Outcome (Phrase α) :=
  match v with
  | .phrase a => .ok (a, t :: ts)
  | .refusal expected => refuse expected t

/-- Tokens that differ in their positions only. -/
def SameKinds (us vs : List Token) : Prop :=
  us.map Token.kind = vs.map Token.kind

/-- What the first reader decides in front of a token, the second decides in front of every token
of that kind, behind tokens of the same kinds. -/
def Foresees {α : Type} (p q : Reader α) : Prop :=
  ∀ (ts : List Token) (v : Verdict α) (t : Token) (behind : List Token),
    p ts = v.at t behind →
      ∃ before rest, ts = before ++ t :: rest ∧ p ts = v.at t rest ∧
        ∀ before' t' rest', SameKinds before' before → t'.kind = t.kind →
          Yields (v.at t' rest') (q (before' ++ t' :: rest'))

/-- The outcome is not that of a reader that stops in front of a token. -/
def Undecided {α : Type} (o : Outcome (Phrase α)) : Prop :=
  ∀ (v : Verdict α) (t : Token) (behind : List Token), o ≠ v.at t behind

/-- The look sees nothing of a token but its kind. -/
def KindOnly {α : Type} (move : Token → Move α) : Prop :=
  ∀ t t', t'.kind = t.kind → move t' = move t

/-- Two looks go on alike. -/
inductive Move.Foresees {α : Type} : Move α → Move α → Prop where
  | keep {p q : Reader α} (h : Zaban.Foresees p q) : Foresees (.keep p) (.keep q)
  | take {p q : Reader α} (h : Zaban.Foresees p q) : Foresees (.take p) (.take q)
  | refuse (expected : Expected) : Foresees (.refuse expected) (.refuse expected)

-- ----------------------------------------------------------------------------
-- The parts
-- ----------------------------------------------------------------------------

section Parts

variable {α β : Type}

theorem Yields.refl (o : Outcome α) : Yields o o := Or.inl rfl

theorem SameKinds.split {us vs ws : List Token} (h : SameKinds us (vs ++ ws)) :
    ∃ vs' ws', us = vs' ++ ws' ∧ SameKinds vs' vs ∧ SameKinds ws' ws := by
  have h' : us.map Token.kind = vs.map Token.kind ++ ws.map Token.kind := by
    simpa [SameKinds] using h
  obtain ⟨vs', ws', rfl, hVs, hWs⟩ := List.map_eq_append_iff.mp h'
  exact ⟨vs', ws', rfl, hVs, hWs⟩

theorem SameKinds.uncons {us ws : List Token} {t : Token} (h : SameKinds us (t :: ws)) :
    ∃ t' ws', us = t' :: ws' ∧ t'.kind = t.kind ∧ SameKinds ws' ws := by
  obtain ⟨t', ws', rfl, hKind, hWs⟩ := List.map_eq_cons_iff.mp h
  exact ⟨t', ws', rfl, hKind, hWs⟩

theorem SameKinds.eq_nil {us : List Token} (h : SameKinds us []) : us = [] :=
  List.map_eq_nil_iff.mp h

/-- Tokens up to a token start as tokens of the same kinds do. -/
theorem SameKinds.head {us ws : List Token} (h : SameKinds us ws) {t t' : Token}
    (rest' : List Token) (hKind : t'.kind = t.kind) {u : Token} {rest vs : List Token}
    (hEq : u :: vs = ws ++ t :: rest) :
    ∃ u' vs', us ++ t' :: rest' = u' :: vs' ∧ u'.kind = u.kind := by
  cases ws with
  | nil =>
    obtain rfl := h.eq_nil
    obtain ⟨rfl, -⟩ := List.cons.inj hEq
    exact ⟨t', rest', rfl, hKind⟩
  | cons w ws =>
    obtain ⟨w', ws', rfl, hHead, -⟩ := h.uncons
    obtain ⟨rfl, -⟩ := List.cons.inj hEq
    exact ⟨w', ws' ++ t' :: rest', rfl, hHead⟩

theorem Foresees.undecided_nil {p q : Reader α} (h : Foresees p q) : Undecided (p []) := by
  intro v t behind hEq
  obtain ⟨before, rest, hNil, -⟩ := h _ _ _ _ hEq
  simp at hNil

theorem foresees_of_undecided {p q : Reader α} (h : ∀ ts, Undecided (p ts)) : Foresees p q :=
  fun ts v t behind hEq => absurd hEq (h ts v t behind)

theorem undecided_outOfFuel : Undecided (.error .outOfFuel : Outcome (Phrase α)) := by
  rintro (a | expected) t behind ⟨⟩

/-- A second reader without fuel contradicts nothing. -/
theorem Foresees.starve {p q r : Reader α} (h : Foresees p q)
    (hr : ∀ t ts, r (t :: ts) = .error .outOfFuel) : Foresees p r := by
  intro ts v t behind hEq
  obtain ⟨before, rest, hTs, hAt, -⟩ := h _ _ _ _ hEq
  refine ⟨before, rest, hTs, hAt, ?_⟩
  intro before' t' rest' _ _
  cases before' with
  | nil => exact Or.inr (hr t' rest')
  | cons u us => exact Or.inr (hr u (us ++ t' :: rest'))

theorem foresees_done (a : α) : Foresees (done a) (done a) := by
  intro ts v t behind hEq
  cases v with
  | refusal => cases hEq
  | phrase b =>
    obtain ⟨rfl, rfl⟩ := Prod.mk.inj (Except.ok.inj hEq)
    refine ⟨[], behind, rfl, rfl, ?_⟩
    intro before' t' rest' hBefore _
    obtain rfl := hBefore.eq_nil
    exact .refl _

/-- A phrase that ends before `us`, all of which is known, ends there again. -/
theorem Foresees.phrase {p q : Reader α} (h : Foresees p q) {ts us rest : List Token} {a : α}
    {t : Token} (hRead : p ts = .ok (a, us ++ t :: rest)) :
    ∃ before, ts = before ++ (us ++ t :: rest) ∧
      ∀ before' us' t' rest', SameKinds before' before → SameKinds us' us → t'.kind = t.kind →
        Yields (.ok (a, us' ++ t' :: rest')) (q (before' ++ (us' ++ t' :: rest'))) := by
  obtain ⟨u, vs, hHead⟩ : ∃ u vs, us ++ t :: rest = u :: vs :=
    List.exists_cons_of_ne_nil (by simp)
  rw [hHead] at hRead
  obtain ⟨before, rest₁, rfl, hAt, hAgain⟩ := h ts (.phrase a) u vs hRead
  rw [hRead] at hAt
  have hSame : vs = rest₁ := by simpa [Verdict.at] using hAt
  refine ⟨before, by rw [hHead, hSame], ?_⟩
  intro before' us' t' rest' hBefore hUs hKind
  obtain ⟨u', vs', hHead', hKind'⟩ := hUs.head rest' hKind hHead.symm
  rw [hHead']
  exact hAgain before' u' vs' hBefore hKind'

theorem Yields.andThen {p : Reader α} {f : α → Reader β} {ts rest : List Token} {a : α}
    {o : Outcome (Phrase β)} (hp : Yields (.ok (a, rest)) (p ts)) (hf : Yields o (f a rest)) :
    Yields o (andThen p f ts) := by
  unfold Reader.andThen
  rcases hp with hp | hp
  · rw [hp]
    exact hf
  · rw [hp]
    exact Or.inr rfl

theorem Foresees.andThen {p q : Reader α} {f g : α → Reader β} (hp : Foresees p q)
    (hf : ∀ a, Foresees (f a) (g a)) : Foresees (andThen p f) (andThen q g) := by
  intro ts v t behind hEq
  cases hRead : p ts with
  | error h =>
    -- the first reader has refused the token
    have hAll : ∀ f : α → Reader β, Reader.andThen p f ts = .error h := by
      intro f
      rw [Reader.andThen, hRead]
      rfl
    rw [hAll] at hEq ⊢
    cases v with
    | phrase => cases hEq
    | refusal expected =>
      obtain rfl := Except.error.inj hEq
      have hRefused : p ts = (Verdict.refusal expected).at t behind := hRead
      obtain ⟨before, rest, hTs, -, hAgain⟩ := hp _ _ _ _ hRefused
      refine ⟨before, rest, hTs, rfl, ?_⟩
      intro before' t' rest' hBefore hKind
      unfold Reader.andThen
      rcases hAgain before' t' rest' hBefore hKind with hq | hq
      · rw [hq]
        exact .refl _
      · rw [hq]
        exact Or.inr rfl
  | ok x =>
    obtain ⟨a, us⟩ := x
    have hNext : Reader.andThen p f ts = f a us := by
      rw [Reader.andThen, hRead]
      rfl
    rw [hNext] at hEq ⊢
    obtain ⟨second, rest, rfl, hAt, hAgain⟩ := hf a _ _ _ _ hEq
    obtain ⟨first, rfl, hFirst⟩ := hp.phrase hRead
    refine ⟨first ++ second, rest, by simp, hAt, ?_⟩
    intro before' t' rest' hBefore hKind
    obtain ⟨first', second', rfl, hOne, hTwo⟩ := hBefore.split
    rw [List.append_assoc]
    exact (hFirst first' second' t' rest' hOne hTwo hKind).andThen
      (hAgain second' t' rest' hTwo hKind)

/-- The verdict behind a look stands again in front of every token of the same kind. -/
theorem Move.Foresees.go {m m' : Move α} (h : m.Foresees m') {u t : Token}
    {us behind : List Token} {v : Verdict α} (hGo : m.go u us = v.at t behind) :
    ∃ before rest, u :: us = before ++ t :: rest ∧ m.go u us = v.at t rest ∧
      ∀ before' t' rest', SameKinds before' before → t'.kind = t.kind →
        ∃ u' us', before' ++ t' :: rest' = u' :: us' ∧ u'.kind = u.kind ∧
          Yields (v.at t' rest') (m'.go u' us') := by
  cases h with
  | keep h =>
    obtain ⟨before, rest, hTs, hAt, hAgain⟩ := h _ _ _ _ hGo
    refine ⟨before, rest, hTs, hAt, ?_⟩
    intro before' t' rest' hBefore hKind
    obtain ⟨u', us', hHead, hKind'⟩ := hBefore.head rest' hKind hTs
    refine ⟨u', us', hHead, hKind', ?_⟩
    rw [Move.go, ← hHead]
    exact hAgain before' t' rest' hBefore hKind
  | take h =>
    obtain ⟨before, rest, rfl, hAt, hAgain⟩ := h _ _ _ _ hGo
    refine ⟨u :: before, rest, rfl, hAt, ?_⟩
    intro before' t' rest' hBefore hKind
    obtain ⟨u', vs, rfl, hKind', hVs⟩ := hBefore.uncons
    exact ⟨u', vs ++ t' :: rest', rfl, hKind', hAgain vs t' rest' hVs hKind⟩
  | refuse expected =>
    cases v with
    | phrase => cases hGo
    | refusal e =>
      cases hGo
      refine ⟨[], us, rfl, rfl, ?_⟩
      intro before' t' rest' hBefore hKind
      obtain rfl := hBefore.eq_nil
      exact ⟨t', rest', rfl, hKind, .refl _⟩

theorem foresees_look {atEnd atEnd' : Outcome (Phrase α)} {move move' : Token → Move α}
    (hEnd : Undecided atEnd) (hKinds : KindOnly move') (hMove : ∀ t, (move t).Foresees (move' t)) :
    Foresees (look atEnd move) (look atEnd' move') := by
  intro ts v t behind hEq
  cases ts with
  | nil => exact absurd hEq (hEnd v t behind)
  | cons u us =>
    obtain ⟨before, rest, hTs, hAt, hAgain⟩ := (hMove u).go hEq
    refine ⟨before, rest, hTs, hAt, ?_⟩
    intro before' t' rest' hBefore hKind
    obtain ⟨u', us', hHead, hKind', hGo⟩ := hAgain before' t' rest' hBefore hKind
    rw [hHead, look, hKinds u u' hKind']
    exact hGo

theorem undecided_missing (fin : Ending) (expected : Expected) :
    Undecided (.error (fin.missing expected) : Outcome (Phrase α)) := by
  cases fin <;> rintro (a | e) t behind ⟨⟩

theorem undecided_close (fin : Ending) (a : α) : Undecided (fin.close a) := by
  cases fin <;> rintro (b | e) t behind ⟨⟩

end Parts

-- ----------------------------------------------------------------------------
-- Looks
-- ----------------------------------------------------------------------------

theorem Token.isMark_congr {t t' : Token} (h : t'.kind = t.kind) (mark : Char) :
    t'.isMark mark = t.isMark mark := by
  unfold Token.isMark
  rw [h]

theorem Token.isKeyword_congr {t t' : Token} (h : t'.kind = t.kind) (word : Keyword) :
    t'.isKeyword word = t.isKeyword word := by
  unfold Token.isKeyword
  rw [h]

theorem Token.chainOp?_congr {t t' : Token} (h : t'.kind = t.kind) : t'.chainOp? = t.chainOp? := by
  unfold Token.chainOp?
  rw [h]

variable {fin fin' : Ending}

theorem takeMark_foresees (mark : Char) : Foresees (takeMark fin mark) (takeMark fin' mark) := by
  rw [takeMark_eq, takeMark_eq]
  refine foresees_look (undecided_missing fin _) ?_ ?_
  · intro t t' h
    simp only [Token.isMark_congr h]
  · intro t
    split
    · exact .take (foresees_done ())
    · exact .refuse _

theorem takeName_foresees : Foresees (takeName fin) (takeName fin') := by
  rw [takeName_eq, takeName_eq]
  refine foresees_look (undecided_missing fin _) ?_ ?_
  · intro t t' h
    simp only [nameMove, h]
  · intro t
    unfold nameMove
    split
    · exact .take (foresees_done _)
    · exact .refuse _

theorem readBridge_foresees : Foresees (readBridge fin) (readBridge fin') := by
  rw [readBridge_eq, readBridge_eq]
  refine foresees_look (undecided_missing fin _) ?_ ?_
  · intro t t' h
    simp only [bridgeMove, Token.isMark_congr h, Token.isKeyword_congr h]
  · intro t
    unfold bridgeMove
    split
    · exact .keep (foresees_done ())
    · split
      · exact .take (foresees_done ())
      · exact .refuse _

section Items

variable {α : Type} {item item' : Reader α} {separator stop : Char} {fuel fuel' : Nat}

theorem readItems_foresees (hItem : Foresees item item') (first : Bool) :
    Foresees (readItems fin item separator stop fuel first)
      (readItems fin' item' separator stop fuel' first) := by
  induction fuel generalizing fuel' first with
  | zero => exact foresees_of_undecided fun _ => undecided_outOfFuel
  | succ fuel ih =>
    have hStep : ∀ fuel', Foresees (readItems fin item separator stop (fuel + 1) first)
        (readItems fin' item' separator stop (fuel' + 1) first) := by
      intro fuel'
      have hMore : Foresees (itemThenMore fin item separator stop fuel)
          (itemThenMore fin' item' separator stop fuel') :=
        hItem.andThen fun a => (ih false).andThen fun as => foresees_done _
      have hKinds : KindOnly (itemMove fin' item' separator stop fuel') := by
        intro t t' h
        simp only [itemMove, Token.isMark_congr h]
      have hMove : ∀ t, (itemMove fin item separator stop fuel t).Foresees
          (itemMove fin' item' separator stop fuel' t) := by
        intro t
        unfold itemMove
        split
        · exact .take (foresees_done [])
        · exact .keep hMore
      cases first with
      | true =>
        rw [readItems_first_eq, readItems_first_eq]
        exact foresees_look (undecided_missing fin _) hKinds hMove
      | false =>
        rw [readItems_more_eq, readItems_more_eq]
        refine foresees_look (undecided_missing fin _) ?_ ?_
        · intro t t' h
          simp only [separatorMove, Token.isMark_congr h]
        · intro t
          unfold separatorMove
          split
          · exact .take (foresees_done [])
          · split
            · exact .take (foresees_look hMore.undecided_nil hKinds hMove)
            · exact .refuse _
    cases fuel' with
    | zero => exact (hStep 0).starve fun _ _ => rfl
    | succ fuel' => exact hStep fuel'

end Items

-- ----------------------------------------------------------------------------
-- The readers
-- ----------------------------------------------------------------------------

/-- Every reader foresees what it does with other fuel and in front of another end. -/
structure Foreseeing (fin fin' : Ending) (fuel fuel' : Nat) : Prop where
  expression  : Foresees (readExpression fin fuel) (readExpression fin' fuel')
  chain       : ∀ threshold left,
    Foresees (readChain fin fuel threshold left) (readChain fin' fuel' threshold left)
  arguments   : ∀ callee, Foresees (readArguments fin fuel callee) (readArguments fin' fuel' callee)
  operand     : Foresees (readOperand fin fuel) (readOperand fin' fuel')
  atom        : Foresees (readAtomAt fin fuel) (readAtomAt fin' fuel')
  conditional : Foresees (readConditional fin fuel) (readConditional fin' fuel')
  function    : Foresees (readFunction fin fuel) (readFunction fin' fuel')

section Step

variable {fuel fuel' : Nat}

theorem Foreseeing.chain_succ (h : Foreseeing fin fin' fuel fuel') (threshold : Nat) (left : Node) :
    Foresees (readChain fin (fuel + 1) threshold left)
      (readChain fin' (fuel' + 1) threshold left) := by
  rw [readChain_eq, readChain_eq]
  refine foresees_look (undecided_close fin left) ?_ ?_
  · intro t t' hKind
    simp only [chainMove, Token.chainOp?_congr hKind]
  · intro t
    unfold chainMove
    split
    · exact .keep (foresees_done left)
    · split
      · exact .keep (foresees_done left)
      · refine .take (h.operand.andThen fun next => ?_)
        exact (h.chain _ next).andThen fun right => h.chain _ _

theorem Foreseeing.arguments_succ (h : Foreseeing fin fin' fuel fuel') (callee : Node) :
    Foresees (readArguments fin (fuel + 1) callee) (readArguments fin' (fuel' + 1) callee) := by
  rw [readArguments_eq, readArguments_eq]
  refine foresees_look (undecided_close fin callee) ?_ ?_
  · intro t t' hKind
    simp only [argumentsMove, Token.isMark_congr hKind]
  · intro t
    unfold argumentsMove
    split
    · exact .take ((readItems_foresees h.expression true).andThen fun args => h.arguments _)
    · exact .keep (foresees_done callee)

theorem Foreseeing.atom_succ (h : Foreseeing fin fin' fuel fuel') :
    Foresees (readAtomAt fin (fuel + 1)) (readAtomAt fin' (fuel' + 1)) := by
  rw [readAtomAt_eq, readAtomAt_eq]
  refine foresees_look (undecided_missing fin _) ?_ ?_
  · intro t t' hKind
    simp only [atomMove, hKind]
  · intro t
    unfold atomMove
    split
    · refine .take (h.expression.andThen fun inner => ?_)
      exact (takeMark_foresees ')').andThen fun _ => foresees_done inner
    · exact .take ((readItems_foresees h.expression true).andThen fun body => foresees_done _)
    · exact .take h.conditional
    · exact .take h.function
    · exact .take h.function
    all_goals first
      | exact .take (foresees_done _)
      | exact .refuse _

theorem Foreseeing.conditional_succ (h : Foreseeing fin fin' fuel fuel') :
    Foresees (readConditional fin (fuel + 1)) (readConditional fin' (fuel' + 1)) := by
  rw [readConditional_eq, readConditional_eq]
  refine h.expression.andThen fun test => ?_
  refine readBridge_foresees.andThen fun _ => ?_
  refine h.expression.andThen fun yes => ?_
  rw [readOtherwise_eq, readOtherwise_eq]
  refine foresees_look (undecided_close fin _) ?_ ?_
  · intro t t' hKind
    simp only [otherwiseMove, Token.isKeyword_congr hKind]
  · intro t
    unfold otherwiseMove
    split
    · exact .take (h.expression.andThen fun no => foresees_done _)
    · exact .keep (foresees_done _)

theorem Foreseeing.function_succ (h : Foreseeing fin fin' fuel fuel') :
    Foresees (readFunction fin (fuel + 1)) (readFunction fin' (fuel' + 1)) := by
  rw [readFunction_eq, readFunction_eq]
  refine (takeMark_foresees '(').andThen fun _ => ?_
  refine (readItems_foresees takeName_foresees true).andThen fun params => ?_
  exact h.expression.andThen fun body => foresees_done _

theorem foreseeing_succ (h : Foreseeing fin fin' fuel fuel') :
    Foreseeing fin fin' (fuel + 1) (fuel' + 1) where
  expression := by
    rw [readExpression_eq, readExpression_eq]
    refine h.operand.andThen fun first => ?_
    exact (h.chain 0 first).andThen fun chain => h.arguments chain
  chain := h.chain_succ
  arguments := h.arguments_succ
  operand := by
    rw [readOperand_eq, readOperand_eq]
    exact h.atom.andThen fun atom => h.arguments atom
  atom := h.atom_succ
  conditional := h.conditional_succ
  function := h.function_succ

end Step

/-- **The readers look one token ahead**, with any amounts of fuel and however the scans ended. -/
theorem foreseeing_readers (fin fin' : Ending) (fuel fuel' : Nat) :
    Foreseeing fin fin' fuel fuel' := by
  induction fuel generalizing fuel' with
  | zero =>
    have hNone : ∀ {α : Type} {q : Reader α}, Foresees (fun _ => .error .outOfFuel) q :=
      foresees_of_undecided fun _ => undecided_outOfFuel
    refine ⟨hNone, fun _ _ => hNone, fun _ => hNone, hNone, ?_, hNone, hNone⟩
    refine foresees_of_undecided fun ts => ?_
    cases ts with
    | nil => exact undecided_missing fin _
    | cons t ts => exact undecided_outOfFuel
  | succ fuel ih =>
    cases fuel' with
    | succ fuel' => exact foreseeing_succ (ih fuel')
    | zero =>
      -- what the first reader decides is known from a second one with a little fuel
      have h := foreseeing_succ (ih 0)
      exact {
        expression := h.expression.starve fun _ _ => rfl
        chain := fun threshold left => (h.chain threshold left).starve fun _ _ => rfl
        arguments := fun callee => (h.arguments callee).starve fun _ _ => rfl
        operand := h.operand.starve fun _ _ => rfl
        atom := h.atom.starve fun _ _ => rfl
        conditional := h.conditional.starve fun _ _ => rfl
        function := h.function.starve fun _ _ => rfl }

theorem readProgram_foresees (fin fin' : Ending) (fuel fuel' : Nat) :
    Foresees (readProgram fin fuel) (readProgram fin' fuel') := by
  induction fuel generalizing fuel' with
  | zero => exact foresees_of_undecided fun _ => undecided_outOfFuel
  | succ fuel ih =>
    have hStep : ∀ fuel', Foresees (readProgram fin (fuel + 1)) (readProgram fin' (fuel' + 1)) := by
      intro fuel'
      rw [readProgram_eq, readProgram_eq]
      refine foresees_look (undecided_close fin []) (fun _ _ _ => rfl) fun _ => .keep ?_
      refine (foreseeing_readers fin fin' fuel fuel').expression.andThen fun x => ?_
      refine foresees_look (undecided_close fin [x]) ?_ ?_
      · intro t t' hKind
        simp only [programMove, Token.isMark_congr hKind]
      · intro t
        unfold programMove
        split
        · exact .take ((ih fuel').andThen fun xs => foresees_done _)
        · exact .refuse _
    cases fuel' with
    | zero => exact (hStep 0).starve fun _ _ => rfl
    | succ fuel' => exact hStep fuel'

end Zaban
