import Zaban.Proofs.Grammar.Climbing

/-!
# What can follow an expression

Argument lists are asked for in two places: behind every operand, and once more
behind a whole expression. The second place never has anything to do. An operand
leaves no argument list behind it, a chain stops only where neither an argument
list nor an operator that it could take comes next, and so an expression leaves
neither (`Stops`). `readExpression_succ` says it as an equation: an expression is
an operand and a chain, and nothing more, also where reading fails.

It follows which part of an expression an argument list belongs to. All that a
chain does is to join what the reader of operands gives (`Linked`), so a list is
applied where it is taken, by one operand (`readChain_linked`). Where the last
operand of a chain ends with a token of its own, a list behind the chain is
applied to that operand, and the operators around it stay as they are
(`readExpression_applied`).
-/

namespace Zaban

open Grammar

-- ----------------------------------------------------------------------------
-- Where readers stop
-- ----------------------------------------------------------------------------

section Stopping

variable {fin : Ending} {fuel fuel' threshold : Nat} {ts us rest : List Token} {n first : Node}

theorem readOperand_noArguments (h : readOperand fin fuel ts = .ok (n, rest)) :
    nextIs '(' rest = false := by
  obtain ⟨-, -, -, hNext⟩ := (sound_readers fin fuel).operand h
  exact hNext

theorem readChain_stops (hFirst : readOperand fin fuel' ts = .ok (first, us))
    (h : readChain fin fuel threshold first us = .ok (n, rest)) : Stops threshold rest := by
  obtain ⟨-, -, -, -, -, hStops⟩ :=
    (sound_readers fin fuel).chain (readOperand_noArguments hFirst) h
  exact hStops

/-- Nothing weaker than an expression stops a chain that takes every operator. -/
theorem Stops.noChainOp (h : Stops 0 rest) : ∀ t ∈ rest.head?, t.chainOp? = none := by
  intro t ht
  obtain ⟨us, rfl⟩ := List.head?_eq_some_iff.mp ht
  exact h.chainOp?_eq_none

/-- A reader of chains comes to the end of the tokens only in a text that was read to its end. -/
theorem readChain_finished (h : readChain fin fuel threshold first us = .ok (n, [])) :
    ∃ p, fin = .finished p := by
  induction fuel generalizing threshold first us with
  | zero => cases h
  | succ fuel ih =>
    cases us with
    | nil =>
      rw [readChain, close_eq_ok] at h
      exact h.1
    | cons t us =>
      simp only [readChain] at h
      split at h
      · cases h
      · split at h
        · cases h
        · simp only [bind_eq_ok, Prod.exists] at h
          obtain ⟨next, vs, -, right, ws, -, hMore⟩ := h
          exact ih hMore

/-- Where a chain stopped, a reader of argument lists takes nothing. -/
theorem readArguments_of_stops (hStops : Stops threshold rest)
    (hEnd : rest = [] → ∃ p, fin = .finished p) :
    readArguments fin (fuel + 1) n rest = .ok (n, rest) := by
  cases rest with
  | nil =>
    obtain ⟨p, rfl⟩ := hEnd rfl
    rfl
  | cons t rest =>
    have hOpen := hStops.noArguments
    rw [nextIs_cons] at hOpen
    simp [readArguments, hOpen]

/-- **An expression is an operand and a chain**: the reader of argument lists behind them has no
part in it. -/
theorem readExpression_succ (fin : Ending) (fuel : Nat) (ts : List Token) :
    readExpression fin (fuel + 1) ts =
      readOperand fin fuel ts >>= fun x => readChain fin fuel 0 x.1 x.2 := by
  rw [readExpression]
  cases hFirst : readOperand fin fuel ts with
  | error => rfl
  | ok x =>
    obtain ⟨first, us⟩ := x
    cases hChain : readChain fin fuel 0 first us with
    | error h => simp [bind, Except.bind, hChain]
    | ok y =>
      obtain ⟨chain, vs⟩ := y
      cases fuel with
      | zero => cases hFirst
      | succ fuel =>
        have hStops := readChain_stops hFirst hChain
        have hEnd : vs = [] → ∃ p, fin = .finished p := by
          rintro rfl
          exact readChain_finished hChain
        simp [bind, Except.bind, hChain, readArguments_of_stops hStops hEnd]

end Stopping

-- ----------------------------------------------------------------------------
-- What a chain joins
-- ----------------------------------------------------------------------------

/-- Operators, and behind each of them what a reader of operands gives for the tokens there, in
front of the tokens that are left. -/
inductive Linked (fin : Ending) : List Token → List (ChainOp × Node) → List Token → Prop where
  | stop {ts : List Token} : Linked fin ts [] ts
  | link {t : Token} {us vs rest : List Token} {op : ChainOp} {n : Node}
      {xs : List (ChainOp × Node)} {fuel : Nat} (hOp : t.chainOp? = some op)
      (hOperand : readOperand fin fuel us = .ok (n, vs)) (hRest : Linked fin vs xs rest) :
      Linked fin (t :: us) ((op, n) :: xs) rest

theorem Linked.append {fin : Ending} {ts us rest : List Token} {xs ys : List (ChainOp × Node)}
    (h : Linked fin ts xs us) (h' : Linked fin us ys rest) : Linked fin ts (xs ++ ys) rest := by
  induction h with
  | stop => exact h'
  | link hOp hOperand _ ih => exact .link hOp hOperand (ih h')

/-- **A chain joins operands, and does nothing else.** -/
theorem readChain_linked {fin : Ending} {fuel threshold : Nat} {left n : Node}
    {ts rest : List Token} (h : readChain fin fuel threshold left ts = .ok (n, rest)) :
    ∃ xs, Linked fin ts xs rest ∧ Grouping left xs n := by
  induction fuel generalizing threshold left ts n rest with
  | zero => cases h
  | succ fuel ih =>
    cases ts with
    | nil =>
      rw [readChain, close_eq_ok] at h
      obtain ⟨-, rfl, rfl⟩ := h
      exact ⟨[], .stop, .operand left⟩
    | cons t us =>
      have hStop : (Except.ok (left, t :: us) : Outcome (Phrase Node)) = .ok (n, rest) →
          ∃ xs, Linked fin (t :: us) xs rest ∧ Grouping left xs n := by
        intro hEq
        obtain ⟨rfl, rfl⟩ := Prod.mk.inj (Except.ok.inj hEq)
        exact ⟨[], .stop, .operand left⟩
      simp only [readChain] at h
      split at h
      · exact hStop h
      · rename_i op hOp
        split at h
        · exact hStop h
        · -- the operator takes the next operand and what binds tighter behind it
          simp only [bind_eq_ok, Prod.exists] at h
          obtain ⟨next, vs, hOperand, right, ws, hRight, hMore⟩ := h
          obtain ⟨xs, hInner, hRightTree⟩ := ih hRight
          obtain ⟨ys, hOuter, hTree⟩ := ih hMore
          have hJoined : Grouping left ((op, next) :: xs) (op.join left right) :=
            .join (.operand left) hRightTree
          exact ⟨(op, next) :: (xs ++ ys), .link hOp hOperand (hInner.append hOuter),
            hJoined.graft hTree⟩

/-- An operator with operands on both sides is not a call. -/
theorem Grammar.Grouping.ne_call {first n : Node} {xs : List (ChainOp × Node)}
    (h : Grouping first xs n) (hSome : xs ≠ []) (callee : Node) (args : List Node) :
    n ≠ .call callee args := by
  cases h with
  | operand => exact absurd rfl hSome
  | @join _ _ _ _ op =>
    cases op <;> rintro ⟨⟩

-- ----------------------------------------------------------------------------
-- Argument lists behind a chain
-- ----------------------------------------------------------------------------

namespace Ordered

/-- One more argument list is applied to what the lists before it gave. -/
theorem Applied.append_call {ts us : List Token} {o c : Token} {m n : Node} {args : List Reading}
    (h : Applied ts m n) (hOpen : o.kind = .punctuation '(') (hArgs : Listed Expression ',' us args)
    (hClose : c.kind = .punctuation ')') :
    Applied (ts ++ o :: (us ++ [c])) m (.call n (args.map Reading.node)) := by
  match h with
  | .none => exact .call hOpen hArgs hClose .none
  | .call hOpen' hArgs' hClose' hRest =>
    have hMore := Applied.append_call hRest hOpen hArgs hClose
    simpa only [List.cons_append, List.append_assoc] using .call hOpen' hArgs' hClose' hMore

theorem Operand.append_call {ts us : List Token} {o c : Token} {n : Node} {args : List Reading}
    (h : Operand ts n .tight) (hOpen : o.kind = .punctuation '(')
    (hArgs : Listed Expression ',' us args) (hClose : c.kind = .punctuation ')') :
    Operand (ts ++ o :: (us ++ [c])) (.call n (args.map Reading.node)) .tight := by
  rcases h.tight_or_loose with ⟨vs, ws, m, rfl, hClosed, hApplied⟩ | hLoose
  · rw [List.append_assoc]
    exact .tight hClosed (hApplied.append_call hOpen hArgs hClose)
  · exact absurd rfl hLoose

theorem Chain.append_call {ts us : List Token} {o c : Token} {first m : Node} {op : ChainOp}
    {xs : List (ChainOp × Node)} {args : List Reading}
    (h : Chain Operand ts first (xs ++ [(op, m)]) .tight) (hOpen : o.kind = .punctuation '(')
    (hArgs : Listed Expression ',' us args) (hClose : c.kind = .punctuation ')') :
    Chain Operand (ts ++ o :: (us ++ [c])) first
      (xs ++ [(op, .call m (args.map Reading.node))]) .tight := by
  generalize hXs : xs ++ [(op, m)] = ys at h
  generalize hEdge : Edge.tight = e at h
  induction h generalizing xs with
  | last => simp at hXs
  | link hOperand hOp hRest ih =>
    subst hEdge
    rw [List.append_assoc, List.cons_append]
    cases xs with
    | nil =>
      obtain ⟨hPair, rfl⟩ := List.cons.inj hXs
      obtain ⟨rfl, rfl⟩ := Prod.mk.inj hPair
      cases hRest with
      | last hLast => exact .link hOperand hOp (.last (hLast.append_call hOpen hArgs hClose))
    | cons x xs =>
      obtain ⟨rfl, hTail⟩ := List.cons.inj hXs
      exact .link hOperand hOp (ih hTail rfl)

/-- **An argument list behind a chain is applied to the last operand.** -/
theorem readExpression_applied {p : Position} {fuel : Nat} {ts us rest : List Token} {o c : Token}
    {first m : Node} {op : ChainOp} {xs : List (ChainOp × Node)} {args : List Reading}
    (h : Chain Operand ts first (xs ++ [(op, m)]) .tight) (hOpen : o.kind = .punctuation '(')
    (hArgs : Listed Expression ',' us args) (hClose : c.kind = .punctuation ')')
    (hStops : Stops 0 rest) (hFuel : 4 * (ts ++ o :: (us ++ c :: rest)).length + 4 ≤ fuel) :
    readExpression (.finished p) fuel (ts ++ o :: (us ++ c :: rest)) =
      .ok ((ChainTree.ofChain first
        (xs ++ [(op, .call m (args.map Reading.node))])).node, rest) := by
  have hTokens : ts ++ o :: (us ++ c :: rest) = (ts ++ o :: (us ++ [c])) ++ rest := by simp
  obtain ⟨hFirst, hRest, hRanked⟩ :=
    ChainTree.ofChain_spec first (xs ++ [(op, .call m (args.map Reading.node))])
  have hChain : Chain Operand (ts ++ o :: (us ++ [c]))
      (ChainTree.ofChain first (xs ++ [(op, .call m (args.map Reading.node))])).first
      (ChainTree.ofChain first (xs ++ [(op, .call m (args.map Reading.node))])).rest .tight := by
    rw [hFirst, hRest]
    exact h.append_call hOpen hArgs hClose
  have hEnds : Edge.tight.opened.Ends rest :=
    ⟨hStops.noArguments, fun _ => hStops, by rintro ⟨⟩⟩
  have hExpression : Expression (ts ++ o :: (us ++ [c])) ⟨_, Edge.tight.opened⟩ :=
    .grouped hChain hRanked
  rw [hTokens] at hFuel ⊢
  exact readExpression_eq_ok hExpression hEnds hFuel

end Ordered

-- ----------------------------------------------------------------------------
-- Following
-- ----------------------------------------------------------------------------

/--
**What can follow an expression.** Whatever the tokens are and however the scan
of the text ended:

* behind an operand comes no argument list;
* behind a chain that began with an operand comes neither an argument list nor
  an operator above its threshold;
* behind an expression comes neither an argument list nor an operator.

So the argument lists that are asked for behind a whole expression are never
there. An expression is the operands that its chain joins, each with the
argument lists that it took, and with an operator in it the whole is no call.
An argument list behind a chain of two operands or more is applied to the last
one, where that ends with a token of its own; where it does not, it is a function
or a conditional, and the list is taken inside it.
-/
theorem what_follows_an_expression (fin : Ending) :
    (∀ fuel ts n rest, readOperand fin fuel ts = .ok (n, rest) → nextIs '(' rest = false) ∧
    (∀ fuel fuel' threshold ts first us n rest, readOperand fin fuel' ts = .ok (first, us) →
      readChain fin fuel threshold first us = .ok (n, rest) →
      nextIs '(' rest = false ∧
        ∀ t ∈ rest.head?, ∀ op, t.chainOp? = some op → op.precedence ≤ threshold) ∧
    (∀ fuel ts n rest, readExpression fin fuel ts = .ok (n, rest) →
      nextIs '(' rest = false ∧ ∀ t ∈ rest.head?, t.chainOp? = none) ∧
    (∀ fuel ts, readExpression fin (fuel + 1) ts =
      readOperand fin fuel ts >>= fun x => readChain fin fuel 0 x.1 x.2) ∧
    (∀ fuel ts n rest, readExpression fin (fuel + 1) ts = .ok (n, rest) →
      ∃ first us xs, readOperand fin fuel ts = .ok (first, us) ∧ Linked fin us xs rest ∧
        Grouping first xs n ∧ (xs ≠ [] → ∀ callee args, n ≠ .call callee args)) ∧
    (∀ p fuel ts us rest o c first xs op m args, fin = .finished p →
      Ordered.Chain Ordered.Operand ts first (xs ++ [(op, m)]) .tight →
      o.kind = .punctuation '(' → Listed Ordered.Expression ',' us args →
      c.kind = .punctuation ')' → Stops 0 rest →
      4 * (ts ++ o :: (us ++ c :: rest)).length + 4 ≤ fuel →
      readExpression fin fuel (ts ++ o :: (us ++ c :: rest)) =
        .ok ((ChainTree.ofChain first
          (xs ++ [(op, .call m (args.map Ordered.Reading.node))])).node, rest)) := by
  refine ⟨?_, ?_, ?_, readExpression_succ fin, ?_, ?_⟩
  · intro fuel ts n rest h
    exact readOperand_noArguments h
  · intro fuel fuel' threshold ts first us n rest hFirst h
    have hStops := readChain_stops hFirst h
    refine ⟨hStops.noArguments, fun t ht op hOp => ?_⟩
    obtain ⟨vs, rfl⟩ := List.head?_eq_some_iff.mp ht
    exact hStops.noOperator t vs op rfl hOp
  · intro fuel ts n rest h
    obtain ⟨-, -, -, hStops⟩ := (sound_readers fin fuel).expression h
    exact ⟨hStops.noArguments, hStops.noChainOp⟩
  · intro fuel ts n rest h
    rw [readExpression_succ] at h
    simp only [bind_eq_ok, Prod.exists] at h
    obtain ⟨first, us, hFirst, hChain⟩ := h
    obtain ⟨xs, hLinked, hTree⟩ := readChain_linked hChain
    exact ⟨first, us, xs, hFirst, hLinked, hTree, hTree.ne_call⟩
  · rintro p fuel ts us rest o c first xs op m args rfl h hOpen hArgs hClose hStops hFuel
    exact Ordered.readExpression_applied h hOpen hArgs hClose hStops hFuel

/-- The tokens of a difference that ends with a call. -/
def appliedTokens : List Token :=
  [⟨.name "a", ⟨1, 0⟩⟩, ⟨.operator "-", ⟨1, 2⟩⟩, ⟨.name "f", ⟨1, 4⟩⟩, ⟨.punctuation '(', ⟨1, 5⟩⟩,
    ⟨.name "x", ⟨1, 6⟩⟩, ⟨.punctuation ')', ⟨1, 7⟩⟩]

/-- In `a - f(x)(y);` both argument lists belong to `f`, and the semicolon is left. -/
theorem what_follows_an_expression_calls :
    nextIs '(' appliedTokens.tail = false ∧
    (∀ t ∈ appliedTokens.tail.head?, ∀ op, t.chainOp? = some op → op.precedence ≤ 20) ∧
    (∃ first us xs, readOperand (.finished ⟨1, 12⟩) 59 appliedTokens = .ok (first, us) ∧
      Linked (.finished ⟨1, 12⟩) us xs [] ∧
      Grouping first xs (.binary .minus (.var "a") (.call (.var "f") [.var "x"]))) ∧
    readExpression (.finished ⟨1, 12⟩) 60 (appliedTokens ++ ⟨.punctuation '(', ⟨1, 8⟩⟩ ::
        ([⟨.name "y", ⟨1, 9⟩⟩] ++ ⟨.punctuation ')', ⟨1, 10⟩⟩ ::
          [⟨.punctuation ';', ⟨1, 11⟩⟩])) =
      .ok (.binary .minus (.var "a") (.call (.call (.var "f") [.var "x"]) [.var "y"]),
        [⟨.punctuation ';', ⟨1, 11⟩⟩]) := by
  obtain ⟨hOperand, hChain, -, -, hLinked, hApplied⟩ :=
    what_follows_an_expression (.finished ⟨1, 12⟩)
  have hFirst : readOperand (.finished ⟨1, 12⟩) 59 appliedTokens =
      .ok (.var "a", appliedTokens.tail) := rfl
  have hStopped : readChain (.finished ⟨1, 12⟩) 59 20 (.var "a") appliedTokens.tail =
      .ok (.var "a", appliedTokens.tail) := rfl
  have hWhole : readExpression (.finished ⟨1, 12⟩) 60 appliedTokens =
      .ok (.binary .minus (.var "a") (.call (.var "f") [.var "x"]), []) := rfl
  refine ⟨hOperand _ _ _ _ hFirst, (hChain _ _ _ _ _ _ _ _ hFirst hStopped).2, ?_, ?_⟩
  · obtain ⟨first, us, xs, hOne, hMore, hTree, -⟩ := hLinked 59 _ _ _ hWhole
    exact ⟨first, us, xs, hOne, hMore, hTree⟩
  · have hName : ∀ t word, t.kind = .name word → Ordered.Closed [t] (.var word) := by
      intro t word hKind
      exact .leaf (by simp [Token.leaf?, hKind])
    have hOne : ∀ t word, t.kind = .name word →
        Listed Ordered.Expression ',' [t] [⟨.var word, .loose⟩] := by
      intro t word hKind
      have hChain : Ordered.Chain Ordered.Operand [t] (ChainTree.operand (.var word)).first
          (ChainTree.operand (.var word)).rest .tight :=
        .last (Ordered.Operand.tight (hName t word hKind) .none)
      exact .last (.grouped hChain trivial)
    have hTokens : Ordered.Chain Ordered.Operand appliedTokens (.var "a")
        ([] ++ [(.compute .minus, .call (.var "f") [.var "x"])]) .tight :=
      .link (Ordered.Operand.tight (hName _ _ rfl) .none) rfl
        (.last (Ordered.Operand.tight (hName _ _ rfl)
          (.call rfl (hOne ⟨.name "x", ⟨1, 6⟩⟩ _ rfl) rfl .none)))
    exact hApplied ⟨1, 12⟩ 60 _ _ _ _ _ _ _ _ _ _ rfl hTokens rfl (hOne _ _ rfl) rfl
      (halts_of_mark [] rfl (by decide)).stops (by decide)

end Zaban
