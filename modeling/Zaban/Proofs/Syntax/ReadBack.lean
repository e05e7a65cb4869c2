import Zaban.Proofs.Grammar.Sequence
import Zaban.Proofs.Syntax.Legible

/-!
# A text that was written is read back

The text of a legible tree parses to that tree (`parse_text`). The text is read
as the tokens of the tree, so what is left is that the readers take these
tokens for the tree again.

How far a reader goes is decided by the token behind the tree. A tree that is
not greedy ends with its last token, and argument lists behind it are applied
to it (`Reads.applied`). A greedy tree ends where its last part does, which
must be where neither an operator nor an argument list follows, nor a second
branch that it could take (`Follows`, `Reads.operand`). Both are proved for a
tree from its parts, one lemma for each form of tree; a reader that has too
little fuel is no exception, since it can only be cut off (`Yields`).
-/

namespace Zaban

open Reader

-- ----------------------------------------------------------------------------
-- What may follow
-- ----------------------------------------------------------------------------

/-- The tokens behind the tree do not belong to it. -/
structure Follows (n : Node) (rest : List Token) : Prop where
  stops  : Stops 0 rest
  noElse : n.endsOpen = true → ∀ t ∈ rest.head?, t.kind ≠ .keyword .nate

theorem stops_cons {t : Token} (hParen : t.isMark '(' = false) (hOp : t.chainOp? = none)
    (threshold : Nat) (rest : List Token) : Stops threshold (t :: rest) := by
  refine ⟨hParen, ?_⟩
  rintro _ _ op ⟨⟩ hSome
  rw [hOp] at hSome
  cases hSome

theorem isMark_mark (c d : Char) : (mark c).isMark d = (c == d) := rfl

theorem stops_mark {c : Char} (h : c ≠ '(') (threshold : Nat) (rest : List Token) :
    Stops threshold (mark c :: rest) := by
  refine stops_cons ?_ rfl threshold rest
  rw [isMark_mark, beq_eq_false_iff_ne]
  exact h

theorem follows_mark (n : Node) (c : Char) (h : c ≠ '(') (rest : List Token) :
    Follows n (mark c :: rest) := by
  refine ⟨stops_mark h 0 rest, ?_⟩
  rintro - t ⟨⟩ hWord
  cases hWord

theorem follows_nil (n : Node) : Follows n [] :=
  ⟨stops_nil 0, by rintro - t ⟨⟩⟩

-- ----------------------------------------------------------------------------
-- Readers that stop
-- ----------------------------------------------------------------------------

section Stopping

variable {p : Position} {n : Node} {ts rest : List Token} {o : Outcome (Phrase Node)}

theorem readArguments_stop (h : nextIs '(' rest = false) (n : Node) (fuel : Nat) :
    Yields (.ok (n, rest)) (readArguments (.finished p) fuel n rest) := by
  cases fuel with
  | zero => exact Or.inr rfl
  | succ fuel =>
    rw [readArguments_eq]
    cases rest with
    | nil => exact .refl _
    | cons t ts =>
      rw [nextIs_cons] at h
      rw [look, argumentsMove, h]
      exact .refl _

theorem readChain_stop {threshold : Nat} (h : Stops threshold rest) (n : Node) (fuel : Nat) :
    Yields (.ok (n, rest)) (readChain (.finished p) fuel threshold n rest) := by
  cases fuel with
  | zero => exact Or.inr rfl
  | succ fuel =>
    rw [readChain_eq]
    cases rest with
    | nil => exact .refl _
    | cons t ts =>
      rw [look, chainMove]
      cases hOp : t.chainOp? with
      | none => exact .refl _
      | some op =>
        simp only [if_pos (h.noOperator t ts op rfl hOp)]
        exact .refl _

theorem readExpression_of_operand (hStops : Stops 0 rest)
    (h : ∀ fuel, Yields (.ok (n, rest)) (readOperand (.finished p) fuel ts)) (fuel : Nat) :
    Yields (.ok (n, rest)) (readExpression (.finished p) fuel ts) := by
  cases fuel with
  | zero => exact Or.inr rfl
  | succ fuel =>
    rw [readExpression_eq]
    exact (h fuel).andThen ((readChain_stop hStops n fuel).andThen
      (readArguments_stop hStops.noArguments n fuel))

theorem readOperand_of_atom
    (hAtom : ∀ fuel, Yields (.ok (n, rest)) (readAtomAt (.finished p) fuel ts))
    (hArgs : ∀ fuel, Yields o (readArguments (.finished p) fuel n rest)) (fuel : Nat) :
    Yields o (readOperand (.finished p) fuel ts) := by
  cases fuel with
  | zero => exact Or.inr rfl
  | succ fuel =>
    rw [readOperand_eq]
    exact (hAtom fuel).andThen (hArgs fuel)

end Stopping

-- ----------------------------------------------------------------------------
-- Trees that are read
-- ----------------------------------------------------------------------------

/-- The readers take the tokens of the tree for the tree, in front of a text that ends at `p`. -/
structure Reads (p : Position) (n : Node) : Prop where
  applied : n.isGreedy = false → ∀ {o rest},
    (∀ fuel, Yields o (readArguments (.finished p) fuel n rest)) →
      ∀ fuel, Yields o (readOperand (.finished p) fuel (n.tokens ++ rest))
  operand : ∀ {rest}, Follows n rest →
    ∀ fuel, Yields (.ok (n, rest)) (readOperand (.finished p) fuel (n.tokens ++ rest))

section Reads

variable {p : Position} {n : Node}

theorem Reads.expression (h : Reads p n) {rest : List Token} (hRest : Follows n rest) (fuel : Nat) :
    Yields (.ok (n, rest)) (readExpression (.finished p) fuel (n.tokens ++ rest)) :=
  readExpression_of_operand hRest.stops (h.operand hRest) fuel

/-- A tree that is not greedy is an operand in front of anything but arguments. -/
theorem reads_of_applied (h : ∀ {o rest},
    (∀ fuel, Yields o (readArguments (.finished p) fuel n rest)) →
      ∀ fuel, Yields o (readOperand (.finished p) fuel (n.tokens ++ rest))) : Reads p n where
  applied _ := h
  operand hRest := h (readArguments_stop hRest.stops.noArguments n)

/-- An atom that ends with its last token. -/
theorem reads_of_atom (h : ∀ rest fuel,
    Yields (.ok (n, rest)) (readAtomAt (.finished p) (fuel + 1) (n.tokens ++ rest)))
    (hSome : n.tokens ≠ []) : Reads p n := by
  refine reads_of_applied fun {o rest} hArgs => readOperand_of_atom ?_ hArgs
  intro fuel
  cases fuel with
  | zero =>
    obtain ⟨t, ts, hTokens⟩ := List.exists_cons_of_ne_nil hSome
    rw [hTokens]
    exact Or.inr rfl
  | succ fuel => exact h rest fuel

/-- A greedy tree, of which the last part is read in front of what follows. -/
theorem reads_of_greedy (hGreedy : n.isGreedy = true) (h : ∀ {rest}, Follows n rest → ∀ fuel,
    Yields (.ok (n, rest)) (readAtomAt (.finished p) fuel (n.tokens ++ rest))) : Reads p n where
  applied hOther := absurd (hGreedy.symm.trans hOther) (by decide)
  operand hRest := readOperand_of_atom (h hRest) (readArguments_stop hRest.stops.noArguments n)

end Reads

-- ----------------------------------------------------------------------------
-- Lists
-- ----------------------------------------------------------------------------

/-- The tokens begin an item: they are not empty, and do not begin with a closing mark. -/
def BeginsItem (ts : List Token) : Prop :=
  ∃ t us, ts = t :: us ∧ ∀ c, t.kind = .punctuation c → c = '(' ∨ c = '{'

section Items

variable {α : Type} {fin : Ending} {item : Reader α} {tokensOf : α → List Token}
  {separator stop : Char}

/-- In front of an item, a reader of lists reads it. -/
theorem readItems_item (hParen : stop ≠ '(') (hBrace : stop ≠ '{') {ts : List Token}
    (h : BeginsItem ts) (fuel : Nat) (rest : List Token) :
    readItems fin item separator stop (fuel + 1) true (ts ++ rest) =
      itemThenMore fin item separator stop fuel (ts ++ rest) := by
  obtain ⟨t, us, rfl, hMarks⟩ := h
  have hOther : t.isMark stop = false := by
    rw [Bool.eq_false_iff]
    intro hStop
    rcases hMarks stop (Token.isMark_iff.mp hStop) with hEq | hEq
    · exact hParen hEq
    · exact hBrace hEq
  rw [readItems_first_eq, List.cons_append, look, itemMove, hOther]
  rfl

/-- **Items with separators between them are read**, up to the closing mark. -/
theorem readItems_tokens (hParen : stop ≠ '(') (hBrace : stop ≠ '{') (hDiff : separator ≠ stop)
    {as : List α} (hItem : ∀ a ∈ as, ∀ c ∈ [separator, stop], ∀ rest,
      Yields (.ok (a, mark c :: rest)) (item (tokensOf a ++ mark c :: rest)))
    (hBegins : ∀ a ∈ as, BeginsItem (tokensOf a)) (fuel : Nat) (rest : List Token) :
    Yields (.ok (as, rest)) (readItems fin item separator stop fuel true
      (List.intercalate [mark separator] (as.map tokensOf) ++ mark stop :: rest)) := by
  induction as generalizing fuel with
  | nil =>
    cases fuel with
    | zero => exact Or.inr rfl
    | succ fuel => exact Or.inl (readItems_stop rfl rest true fuel)
  | cons a as ih =>
    cases fuel with
    | zero => exact Or.inr rfl
    | succ fuel =>
      have hBegin := hBegins a List.mem_cons_self
      cases as with
      | nil =>
        rw [List.map_singleton, List.intercalate_singleton, readItems_item hParen hBrace hBegin]
        refine (hItem a List.mem_cons_self stop (by simp) rest).andThen ?_
        have hStop : Yields (.ok ([], rest))
            (readItems fin item separator stop fuel false (mark stop :: rest)) := by
          cases fuel with
          | zero => exact Or.inr rfl
          | succ fuel => exact Or.inl (readItems_stop rfl rest false fuel)
        exact hStop.andThen (.refl _)
      | cons b bs =>
        have hMore := ih (fun d hd => hItem d (List.mem_cons_of_mem a hd))
          (fun d hd => hBegins d (List.mem_cons_of_mem a hd)) fuel
        rw [List.map_cons, List.map_cons, List.intercalate_cons_cons, ← List.map_cons,
          List.append_assoc, List.append_assoc, List.singleton_append,
          readItems_item hParen hBrace hBegin]
        refine (hItem a List.mem_cons_self separator (by simp) _).andThen ?_
        have hOthers : Yields (.ok (b :: bs, rest)) (readItems fin item separator stop fuel false
            (mark separator :: (List.intercalate [mark separator] ((b :: bs).map tokensOf) ++
              mark stop :: rest))) := by
          cases fuel with
          | zero => exact Or.inr rfl
          | succ fuel =>
            rw [readItems_separator hDiff rfl (by simp) fuel]
            exact hMore
        exact hOthers.andThen (.refl _)

end Items

-- ----------------------------------------------------------------------------
-- One lemma for each form of tree
-- ----------------------------------------------------------------------------

theorem takeMark_mark (fin : Ending) (c : Char) (ts : List Token) :
    takeMark fin c (mark c :: ts) = .ok ((), ts) :=
  takeMark_eq_ok.mpr ⟨mark c, rfl, rfl⟩

section Openings

variable (fin : Ending) (fuel : Nat) (ts : List Token)

theorem readAtomAt_paren : readAtomAt fin (fuel + 1) (mark '(' :: ts) =
    andThen (readExpression fin fuel) (fun inner =>
      andThen (takeMark fin ')') fun _ => done inner) ts := by
  rw [readAtomAt_eq]
  rfl

theorem readAtomAt_brace : readAtomAt fin (fuel + 1) (mark '{' :: ts) =
    andThen (readItems fin (readExpression fin fuel) ';' '}' fuel true) (fun body =>
      done (blockNode body)) ts := by
  rw [readAtomAt_eq]
  rfl

theorem readAtomAt_yeli :
    readAtomAt fin (fuel + 1) ((TokenKind.keyword .yeli).token :: ts) =
      readConditional fin fuel ts := by
  rw [readAtomAt_eq]
  rfl

theorem readAtomAt_banav :
    readAtomAt fin (fuel + 1) ((TokenKind.keyword .banav).token :: ts) =
      readFunction fin fuel ts := by
  rw [readAtomAt_eq]
  rfl

theorem readArguments_paren (callee : Node) :
    readArguments fin (fuel + 1) callee (mark '(' :: ts) =
      andThen (readItems fin (readExpression fin fuel) ',' ')' fuel true) (fun args =>
        readArguments fin fuel (.call callee args)) ts := by
  rw [readArguments_eq]
  rfl

end Openings

/-- A tree begins with a token that is no closing mark. -/
theorem Node.tokens_begin : ∀ n : Node, BeginsItem n.tokens
  | .program _ => ⟨_, _, rfl, by rintro c ⟨⟩; exact Or.inr rfl⟩
  | .assignment .. => ⟨_, _, rfl, by rintro c ⟨⟩; exact Or.inl rfl⟩
  | .binary .. => ⟨_, _, rfl, by rintro c ⟨⟩; exact Or.inl rfl⟩
  | .condition .. => ⟨_, _, rfl, by rintro c ⟨⟩⟩
  | .lambda .. => ⟨_, _, rfl, by rintro c ⟨⟩⟩
  | .call callee _ => by
    obtain ⟨t, us, hTokens, hMarks⟩ := callee.tokens_begin
    exact ⟨t, _, by rw [tokens, hTokens]; rfl, hMarks⟩
  | .var _ => ⟨_, _, rfl, by rintro c ⟨⟩⟩
  | .number _ => ⟨_, _, rfl, by rintro c ⟨⟩⟩
  | .string _ => ⟨_, _, rfl, by rintro c ⟨⟩⟩
  | .boolean true => ⟨_, _, rfl, by rintro c ⟨⟩⟩
  | .boolean false => ⟨_, _, rfl, by rintro c ⟨⟩⟩

theorem Node.tokenLists_eq (xs : List Node) : Node.tokenLists xs = xs.map Node.tokens := by
  induction xs with
  | nil => rfl
  | cons x xs ih => rw [Node.tokenLists, ih, List.map_cons]

section Forms

variable {p : Position}

/-- Trees in a list are read, in front of a closing mark. -/
theorem readItems_nodes (separator stop : Char) (hParen : stop ≠ '(') (hBrace : stop ≠ '{')
    (hDiff : separator ≠ stop) (hSeparator : separator ≠ '(') {xs : List Node}
    (h : ∀ x ∈ xs, Reads p x) (fuel fuel' : Nat) (rest : List Token) :
    Yields (.ok (xs, rest)) (readItems (.finished p) (readExpression (.finished p) fuel) separator
      stop fuel' true
      (List.intercalate [mark separator] (Node.tokenLists xs) ++ mark stop :: rest)) := by
  rw [Node.tokenLists_eq]
  refine readItems_tokens hParen hBrace hDiff ?_ (fun x _ => x.tokens_begin) fuel' rest
  intro x hx c hc rest
  have hOpen : c ≠ '(' := by
    rcases List.mem_pair.mp hc with rfl | rfl
    · exact hSeparator
    · exact hParen
  exact (h x hx).expression (follows_mark x c hOpen rest) fuel

theorem reads_leaf {n : Node} {t : Token} (hTokens : n.tokens = [t]) (hLeaf : t.leaf? = some n) :
    Reads p n := by
  refine reads_of_atom (fun rest fuel => ?_) (by simp [hTokens])
  rw [hTokens]
  exact Or.inl (readAtom_leaf hLeaf rest)

/-- An operator between two trees, in parentheses. -/
theorem reads_operation {op : ChainOp} {symbol : String} {left right : Node}
    (hSymbol : (TokenKind.operator symbol).token.chainOp? = some op)
    (hGreedy : left.isGreedy = false) (hLeft : Reads p left) (hRight : Reads p right)
    (rest : List Token) (fuel : Nat) :
    Yields (.ok (op.join left right, rest)) (readAtomAt (.finished p) (fuel + 1)
      (parens (left.tokens ++ (TokenKind.operator symbol).token :: right.tokens) ++ rest)) := by
  have hTokens :
      parens (left.tokens ++ (TokenKind.operator symbol).token :: right.tokens) ++ rest =
        mark '(' :: (left.tokens ++ (TokenKind.operator symbol).token ::
          (right.tokens ++ mark ')' :: rest)) := by
    simp [parens]
  have hClose := fun threshold => stops_mark (c := ')') (by decide) threshold rest
  -- the chain of the two operands, in front of the closing parenthesis
  have hChain : ∀ fuel, Yields (.ok (op.join left right, mark ')' :: rest))
      (readChain (.finished p) fuel 0 left
        ((TokenKind.operator symbol).token :: (right.tokens ++ mark ')' :: rest))) := by
    intro fuel
    cases fuel with
    | zero => exact Or.inr rfl
    | succ fuel =>
      rw [readChain_eq, look, chainMove, hSymbol]
      simp only [if_neg (Nat.not_le.mpr op.precedence_pos), Move.go]
      refine (hRight.operand (follows_mark right ')' (by decide) rest) fuel).andThen ?_
      exact (readChain_stop (hClose _) right fuel).andThen (readChain_stop (hClose 0) _ fuel)
  have hInner : ∀ fuel, Yields (.ok (op.join left right, mark ')' :: rest))
      (readExpression (.finished p) fuel
        (left.tokens ++ (TokenKind.operator symbol).token ::
          (right.tokens ++ mark ')' :: rest))) := by
    intro fuel
    cases fuel with
    | zero => exact Or.inr rfl
    | succ fuel =>
      rw [readExpression_eq]
      refine (hLeft.applied hGreedy (readArguments_stop rfl left) fuel).andThen ?_
      exact (hChain fuel).andThen (readArguments_stop (hClose 0).noArguments _ fuel)
  rw [hTokens, readAtomAt_paren]
  refine (hInner fuel).andThen ?_
  exact Yields.andThen (Or.inl (takeMark_mark _ ')' rest)) (.refl _)

theorem reads_program {body : List Node} (hLength : 2 ≤ body.length)
    (h : ∀ x ∈ body, Reads p x) : Reads p (.program body) := by
  have hBlock : blockNode body = .program body := by
    match body, hLength with
    | x :: y :: xs, _ => rfl
  refine reads_of_atom (fun rest fuel => ?_) (by simp [Node.tokens])
  rw [Node.tokens, List.cons_append, List.append_assoc, List.singleton_append, readAtomAt_brace]
  have hItems := readItems_nodes ';' '}' (by decide) (by decide) (by decide) (by decide) h fuel fuel
    rest
  refine hItems.andThen ?_
  rw [hBlock]
  exact .refl _

theorem reads_call {callee : Node} {args : List Node} (hGreedy : callee.isGreedy = false)
    (hCallee : Reads p callee) (h : ∀ x ∈ args, Reads p x) : Reads p (.call callee args) := by
  refine reads_of_applied fun {o rest} hArgs fuel => ?_
  rw [Node.tokens, List.append_assoc]
  refine hCallee.applied hGreedy (fun fuel => ?_) fuel
  -- the argument list is applied, and then those behind it
  cases fuel with
  | zero => exact Or.inr rfl
  | succ fuel =>
    rw [parens, List.cons_append, List.append_assoc, List.singleton_append,
      readArguments_paren]
    have hItems := readItems_nodes ',' ')' (by decide) (by decide) (by decide) (by decide) h fuel
      fuel rest
    exact hItems.andThen (hArgs fuel)

/-- The second branch of a conditional, behind the first. -/
theorem readOtherwise_tokens {test yes : Node} {no : Option Node} {rest : List Token}
    (hNo : ∀ x ∈ no, Reads p x) (hRest : Follows (.condition test yes no) rest) (fuel : Nat) :
    Yields (.ok (.condition test yes no, rest))
      (readOtherwise (.finished p) fuel test yes (Node.elseTokens no ++ rest)) := by
  rw [readOtherwise_eq]
  cases no with
  | some x =>
    have hFollows : Follows x rest := ⟨hRest.stops, hRest.noElse⟩
    have hNate : (TokenKind.keyword .nate).token.isKeyword .nate = true := rfl
    rw [Node.elseTokens, List.cons_append, look, otherwiseMove, if_pos hNate, Move.go]
    exact ((hNo x rfl).expression hFollows fuel).andThen (.refl _)
  | none =>
    cases rest with
    | nil => exact .refl _
    | cons t ts =>
      have hOther : t.isKeyword .nate = false := by
        rw [Bool.eq_false_iff]
        intro hNate
        exact hRest.noElse rfl t rfl (Token.isKeyword_iff.mp hNate)
      rw [Node.elseTokens, List.nil_append, look, otherwiseMove, hOther]
      exact .refl _

/-- What stands behind the first branch of a conditional does not belong to it. -/
theorem Follows.branch {test yes : Node} {no : Option Node} {rest : List Token}
    (hOpen : no.isSome → yes.endsOpen = false) (hRest : Follows (.condition test yes no) rest) :
    Follows yes (Node.elseTokens no ++ rest) := by
  cases no with
  | some x =>
    refine ⟨stops_cons rfl rfl 0 _, fun hEnds => ?_⟩
    rw [hOpen rfl] at hEnds
    cases hEnds
  | none => exact ⟨hRest.stops, fun _ => hRest.noElse rfl⟩

theorem reads_condition {test yes : Node} {no : Option Node} (hTest : Reads p test)
    (hYes : Reads p yes) (hNo : ∀ x ∈ no, Reads p x) (hOpen : no.isSome → yes.endsOpen = false) :
    Reads p (.condition test yes no) := by
  refine reads_of_greedy rfl fun {rest} hRest fuel => ?_
  have hTeli : Follows test ((TokenKind.keyword .teli).token ::
      (yes.tokens ++ (Node.elseTokens no ++ rest))) := by
    refine ⟨stops_cons rfl rfl 0 _, ?_⟩
    rintro - t ⟨⟩ hWord
    cases hWord
  rw [Node.tokens, List.cons_append, List.append_assoc, List.cons_append, List.append_assoc]
  cases fuel with
  | zero => exact Or.inr rfl
  | succ fuel =>
    rw [readAtomAt_yeli]
    cases fuel with
    | zero => exact Or.inr rfl
    | succ fuel =>
      rw [readConditional_eq]
      refine (hTest.expression hTeli fuel).andThen ?_
      have hBranches := (hYes.expression (hRest.branch hOpen) fuel).andThen
        (readOtherwise_tokens hNo hRest fuel)
      refine Yields.andThen (a := ()) (Or.inl ?_) hBranches
      rw [readBridge_eq]
      rfl

theorem reads_lambda {params : List String} {body : Node} (hBody : Reads p body) :
    Reads p (.lambda params body) := by
  refine reads_of_greedy rfl fun {rest} hRest fuel => ?_
  have hFollows : Follows body rest := ⟨hRest.stops, hRest.noElse⟩
  have hParams : ∀ fuel, Yields (.ok (params, body.tokens ++ rest))
      (readItems (.finished p) (takeName (.finished p)) ',' ')' fuel true
        (List.intercalate [mark ','] (params.map fun x => [(TokenKind.name x).token]) ++
          mark ')' :: (body.tokens ++ rest))) := by
    intro fuel
    refine readItems_tokens (by decide) (by decide) (by decide) (fun x _ c _ rest => .refl _) ?_
      fuel _
    exact fun x _ => ⟨_, _, rfl, by rintro c ⟨⟩⟩
  rw [Node.tokens, parens, List.cons_append, List.append_assoc, List.cons_append,
    List.append_assoc, List.singleton_append]
  cases fuel with
  | zero => exact Or.inr rfl
  | succ fuel =>
    rw [readAtomAt_banav]
    cases fuel with
    | zero => exact Or.inr rfl
    | succ fuel =>
      rw [readFunction_eq]
      refine Yields.andThen (Or.inl (takeMark_mark _ '(' _)) ?_
      exact (hParams fuel).andThen ((hBody.expression hFollows fuel).andThen (.refl _))

end Forms

-- ----------------------------------------------------------------------------
-- Legible trees are read back
-- ----------------------------------------------------------------------------

namespace Node

mutual

/-- **The readers take the tokens of a legible tree for the tree.** -/
theorem reads_of_legible (p : Position) : ∀ n : Node, n.Legible → Reads p n
  | .program body, h => reads_program h.1 (reads_all p body h.2)
  | .assignment target value, h => by
    refine reads_of_atom (fun rest fuel => ?_) (by simp [tokens, parens])
    have hSymbol : (TokenKind.operator "=").token.chainOp? = some .assign := rfl
    rw [tokens]
    exact reads_operation hSymbol h.1 (reads_of_legible p target h.2.1)
      (reads_of_legible p value h.2.2) rest fuel
  | .binary op left right, h => by
    refine reads_of_atom (fun rest fuel => ?_) (by simp [tokens, parens])
    have hSymbol : (TokenKind.operator op.symbol).token.chainOp? = some (.compute op) := by
      cases op <;> rfl
    rw [tokens]
    exact reads_operation hSymbol h.1 (reads_of_legible p left h.2.1)
      (reads_of_legible p right h.2.2) rest fuel
  | .condition test yes no, h =>
    reads_condition (reads_of_legible p test h.1) (reads_of_legible p yes h.2.1)
      (reads_else p no h.2.2.1) h.2.2.2
  | .lambda params body, h => reads_lambda (reads_of_legible p body h.2)
  | .call callee args, h =>
    reads_call h.1 (reads_of_legible p callee h.2.1) (reads_all p args h.2.2)
  | .var _, _ => reads_leaf rfl rfl
  | .number _, _ => reads_leaf rfl rfl
  | .string _, _ => reads_leaf rfl rfl
  | .boolean true, _ => reads_leaf rfl rfl
  | .boolean false, _ => reads_leaf rfl rfl

theorem reads_all (p : Position) : ∀ xs : List Node, AllLegible xs → ∀ x ∈ xs, Reads p x
  | [], _ => List.forall_mem_nil _
  | x :: xs, h => List.forall_mem_cons.mpr ⟨reads_of_legible p x h.1, reads_all p xs h.2⟩

theorem reads_else (p : Position) : ∀ no : Option Node, ElseLegible no → ∀ x ∈ no, Reads p x
  | none, _ => by rintro x ⟨⟩
  | some x, h => by
    have hx := reads_of_legible p x h
    rintro y ⟨⟩
    exact hx

end

end Node

/-- The tokens of a legible tree are a program of that tree alone. -/
theorem Node.Legible.parse_tokens {n : Node} (h : n.Legible) :
    (Scan.mk n.tokens (.finished .start)).parse = .ok (.program [n]) := by
  have hRead : ∀ fuel, Yields (.ok ([n], [])) (readProgram (.finished .start) fuel n.tokens) := by
    intro fuel
    cases fuel with
    | zero => exact Or.inr rfl
    | succ fuel =>
      obtain ⟨t, us, hTokens, -⟩ := n.tokens_begin
      have hExpression := (n.reads_of_legible .start h).expression (follows_nil n) fuel
      rw [List.append_nil] at hExpression
      rw [readProgram_eq, hTokens, look, Move.go, ← hTokens]
      exact hExpression.andThen (.refl _)
  rcases hRead (parseFuel n.tokens.length) with hRead | hRead
  · exact Scan.parse_eq_ok_iff.mpr hRead
  · exact absurd hRead (Scan.read_ne_outOfFuel ⟨n.tokens, .finished .start⟩)

theorem Node.Legible.parse_eq {n : Node} (h : n.Legible) : parse n.text = .ok (.program [n]) := by
  have hReading : (Scan.mk n.tokens (.finished .start)).reading = (scan n.text).reading := by
    have hLexes := n.lexes_text h [] (by rintro c ⟨⟩)
    rw [List.append_nil] at hLexes
    rw [scan_reading, hLexes]
    exact Prod.ext (List.append_nil _).symm rfl
  exact Scan.parse_ok_of_reading hReading h.parse_tokens

end Zaban
