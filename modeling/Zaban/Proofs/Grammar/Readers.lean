import Zaban.Proofs.Grammar.Sound

/-!
# The readers, taken apart

A reader is a function of the tokens that are left. All readers are put
together from three parts: **doing nothing**, one reader **and then** another,
and a **look** at the next token that decides how to go on. A look may take
the token, keep it for the reader that goes on, or refuse it. `Reader.look`
is the only part that sees a token, and it sees one.

The equations `readExpression_eq` … `readProgram_eq` take each reader apart in
this way. What holds of the parts, and is kept when they are put together,
then holds of every reader, and none has to be opened again.

The first such property is that the fuel lasts: `Sated n` says that a reader
in front of at most `n` tokens does not run out of it. Taking a token lowers
the number by one, and at most four readers call one another in between, so
`4 * n` and a few more are enough (`sated_readers`).
-/

namespace Zaban

/-- What reads a phrase off the front of the tokens. -/
abbrev Reader (α : Type) := List Token → Outcome (Phrase α)

/-- How a reader goes on behind a look at the next token. -/
inductive Move (α : Type) where
  /-- The token is left to the reader that goes on. -/
  | keep (next : Reader α)
  /-- The token is taken. -/
  | take (next : Reader α)
  /-- The token cannot stand here. -/
  | refuse (expected : Expected)

/-- Goes on in front of the token `t`. -/
def Move.go {α : Type} (m : Move α) (t : Token) (ts : List Token) : Outcome (Phrase α) :=
  match m with
  | .keep next => next (t :: ts)
  | .take next => next ts
  | .refuse expected => Zaban.refuse expected t

namespace Reader

variable {α β : Type}

/-- Reads nothing. -/
def done (a : α) : Reader α := fun ts => .ok (a, ts)

/-- Reads with `p`, and then with the reader that `f` gives for the phrase. -/
def andThen (p : Reader α) (f : α → Reader β) : Reader β := fun ts =>
  p ts >>= fun x => f x.1 x.2

/-- Looks at the next token; without one the outcome is `atEnd`. -/
def look (atEnd : Outcome (Phrase α)) (move : Token → Move α) : Reader α
  | [] => atEnd
  | t :: ts => (move t).go t ts

end Reader

open Reader

-- ----------------------------------------------------------------------------
-- The parts of the readers
-- ----------------------------------------------------------------------------

theorem takeMark_eq (fin : Ending) (mark : Char) :
    takeMark fin mark = look (.error (fin.missing (.punctuation mark))) fun t =>
      if t.isMark mark then .take (done ()) else .refuse (.punctuation mark) := by
  funext ts
  cases ts with
  | nil => rfl
  | cons t ts => cases h : t.isMark mark <;> simp [takeMark, look, Move.go, done, h]

/-- What a token says to a reader of names. -/
def nameMove (t : Token) : Move String :=
  match t.kind with
  | .name word => .take (done word)
  | _ => .refuse .variableName

theorem takeName_eq (fin : Ending) :
    takeName fin = look (.error (fin.missing .variableName)) nameMove := by
  funext ts
  cases ts with
  | nil => rfl
  | cons t ts => cases h : t.kind <;> simp [takeName, look, Move.go, nameMove, done, h]

section Items

variable {α : Type}

/-- An item of a list and the items behind it. -/
def itemThenMore (fin : Ending) (item : Reader α) (separator stop : Char) (fuel : Nat) :
    Reader (List α) :=
  andThen item fun a => andThen (readItems fin item separator stop fuel false) fun as =>
    done (a :: as)

/-- What a token says to a reader of lists that may go on with an item. -/
def itemMove (fin : Ending) (item : Reader α) (separator stop : Char) (fuel : Nat) (t : Token) :
    Move (List α) :=
  if t.isMark stop then .take (done []) else .keep (itemThenMore fin item separator stop fuel)

/-- What a token says to a reader of lists behind an item. -/
def separatorMove (fin : Ending) (item : Reader α) (separator stop : Char) (fuel : Nat)
    (t : Token) : Move (List α) :=
  if t.isMark stop then .take (done [])
  else if t.isMark separator then
    .take (look (itemThenMore fin item separator stop fuel [])
      (itemMove fin item separator stop fuel))
  else .refuse (.punctuation separator)

variable (fin : Ending) (item : Reader α) (separator stop : Char) (fuel : Nat)

theorem readItems_first_eq :
    readItems fin item separator stop (fuel + 1) true =
      look (.error (fin.missing (.punctuation stop))) (itemMove fin item separator stop fuel) := by
  funext ts
  cases ts with
  | nil => rfl
  | cons t ts =>
    rw [readItems]
    cases h : t.isMark stop with
    | true => simp [look, Move.go, itemMove, done, h]
    | false =>
      simp only [look, Move.go, itemMove, nextIs_cons, h, List.isEmpty_cons, Bool.false_eq_true,
        if_false, if_true, pure_bind]
      rfl

theorem readItems_more_eq :
    readItems fin item separator stop (fuel + 1) false =
      look (.error (fin.missing (.punctuation stop)))
        (separatorMove fin item separator stop fuel) := by
  -- behind a separator stands the closing mark or an item
  have hBehind : ∀ ts : List Token,
      look (itemThenMore fin item separator stop fuel [])
          (itemMove fin item separator stop fuel) ts =
        if nextIs stop ts then (pure ([], ts.tail) : Outcome _)
        else itemThenMore fin item separator stop fuel ts := by
    intro ts
    cases ts with
    | nil => rfl
    | cons t ts =>
      cases h : t.isMark stop with
      | true => simp only [look, Move.go, itemMove, h, nextIs_cons, if_true]; rfl
      | false => simp [look, Move.go, itemMove, h]
  funext ts
  cases ts with
  | nil => rfl
  | cons t ts =>
    rw [readItems]
    cases hStop : t.isMark stop with
    | true => simp [look, Move.go, separatorMove, done, hStop]
    | false =>
      cases hMark : t.isMark separator with
      | false => simp only [look, Move.go, separatorMove, hStop, hMark, nextIs_cons, takeMark]; rfl
      | true =>
        have hMove : separatorMove fin item separator stop fuel t =
            .take (look (itemThenMore fin item separator stop fuel [])
              (itemMove fin item separator stop fuel)) := by
          simp [separatorMove, hStop, hMark]
        rw [look, hMove, Move.go, hBehind]
        simp only [nextIs_cons, hStop, hMark, takeMark, List.isEmpty_cons, Bool.false_eq_true,
          if_false, if_true]
        rfl

end Items

section Readers

variable (fin : Ending) (fuel : Nat)

theorem readExpression_eq :
    readExpression fin (fuel + 1) =
      andThen (readOperand fin fuel) fun first =>
        andThen (readChain fin fuel 0 first) fun chain => readArguments fin fuel chain := by
  funext ts
  rw [readExpression]
  rfl

/-- What a token says to a reader of chains. -/
def chainMove (fin : Ending) (fuel threshold : Nat) (left : Node) (t : Token) : Move Node :=
  match t.chainOp? with
  | none => .keep (done left)
  | some op =>
    if op.precedence ≤ threshold then .keep (done left) else
      .take (andThen (readOperand fin fuel) fun next =>
        andThen (readChain fin fuel op.precedence next) fun right =>
          readChain fin fuel threshold (op.join left right))

theorem readChain_eq (threshold : Nat) (left : Node) :
    readChain fin (fuel + 1) threshold left =
      look (fin.close left) (chainMove fin fuel threshold left) := by
  funext ts
  cases ts with
  | nil => rfl
  | cons t ts =>
    simp only [readChain, look, Move.go, chainMove]
    cases t.chainOp? with
    | none => rfl
    | some op => by_cases hWeak : op.precedence ≤ threshold <;> simp only [hWeak] <;> rfl

/-- What a token says to a reader of argument lists. -/
def argumentsMove (fin : Ending) (fuel : Nat) (callee : Node) (t : Token) : Move Node :=
  if t.isMark '(' then
    .take (andThen (readItems fin (readExpression fin fuel) ',' ')' fuel true) fun args =>
      readArguments fin fuel (.call callee args))
  else .keep (done callee)

theorem readArguments_eq (callee : Node) :
    readArguments fin (fuel + 1) callee =
      look (fin.close callee) (argumentsMove fin fuel callee) := by
  funext ts
  cases ts with
  | nil => rfl
  | cons t ts =>
    simp only [readArguments, look, Move.go, argumentsMove]
    cases t.isMark '(' <;> rfl

/-- An atom, with its first token still to be read. -/
def readAtomAt (fin : Ending) (fuel : Nat) : Reader Node
  | [] => .error (fin.missing .expression)
  | t :: ts => readAtom fin fuel t ts

theorem readOperand_eq :
    readOperand fin (fuel + 1) =
      andThen (readAtomAt fin fuel) fun atom => readArguments fin fuel atom := by
  funext ts
  cases ts with
  | nil => rfl
  | cons t ts =>
    simp only [readOperand]
    rfl

/-- What a token says to a reader of atoms. -/
def atomMove (fin : Ending) (fuel : Nat) (t : Token) : Move Node :=
  match t.kind with
  | .punctuation '(' =>
    .take (andThen (readExpression fin fuel) fun inner =>
      andThen (takeMark fin ')') fun _ => done inner)
  | .punctuation '{' =>
    .take (andThen (readItems fin (readExpression fin fuel) ';' '}' fuel true) fun body =>
      done (blockNode body))
  | .keyword .yeli => .take (readConditional fin fuel)
  | .keyword .banav | .keyword .lambda => .take (readFunction fin fuel)
  | .keyword .poz => .take (done (.boolean true))
  | .keyword .apuz => .take (done (.boolean false))
  | .name word => .take (done (.var word))
  | .number value => .take (done (.number value))
  | .string value => .take (done (.string value))
  | _ => .refuse .expression

theorem readAtomAt_eq :
    readAtomAt fin (fuel + 1) = look (.error (fin.missing .expression)) (atomMove fin fuel) := by
  funext ts
  cases ts with
  | nil => rfl
  | cons t ts =>
    simp only [readAtomAt, readAtom, look, Move.go]
    split <;> rename_i hKind <;> simp only [atomMove, hKind] <;> rfl

/-- What a token says to a reader of the word before a branch. -/
def bridgeMove (t : Token) : Move Unit :=
  if t.isMark '{' then .keep (done ())
  else if t.isKeyword .teli then .take (done ())
  else .refuse (.keyword .teli)

theorem readBridge_eq :
    readBridge fin = look (.error (fin.missing (.keyword .teli))) bridgeMove := by
  funext ts
  cases ts with
  | nil => rfl
  | cons t ts =>
    cases hBrace : t.isMark '{' with
    | true => simp only [readBridge, look, Move.go, bridgeMove, nextIs_cons, hBrace, if_true]; rfl
    | false =>
      cases hTeli : t.isKeyword .teli <;>
        simp [readBridge, look, Move.go, bridgeMove, takeKeyword, hBrace, hTeli, done]

/-- What a token says to a reader of second branches. -/
def otherwiseMove (fin : Ending) (fuel : Nat) (test yes : Node) (t : Token) : Move Node :=
  if t.isKeyword .nate then
    .take (andThen (readExpression fin fuel) fun no => done (.condition test yes (some no)))
  else .keep (done (.condition test yes none))

theorem readOtherwise_eq (test yes : Node) :
    readOtherwise fin fuel test yes =
      look (fin.close (.condition test yes none)) (otherwiseMove fin fuel test yes) := by
  funext ts
  cases ts with
  | nil => rfl
  | cons t ts =>
    simp only [readOtherwise, look, Move.go, otherwiseMove]
    cases t.isKeyword .nate <;> rfl

theorem readConditional_eq :
    readConditional fin (fuel + 1) =
      andThen (readExpression fin fuel) fun test => andThen (readBridge fin) fun _ =>
        andThen (readExpression fin fuel) fun yes => readOtherwise fin fuel test yes := by
  funext ts
  rw [readConditional_succ]
  rfl

theorem readFunction_eq :
    readFunction fin (fuel + 1) =
      andThen (takeMark fin '(') fun _ =>
        andThen (readItems fin (takeName fin) ',' ')' fuel true) fun params =>
          andThen (readExpression fin fuel) fun body => done (.lambda params body) := by
  funext ts
  rw [readFunction]
  rfl

/-- What a token says to a reader of programs behind the expression `x`. -/
def programMove (fin : Ending) (fuel : Nat) (x : Node) (t : Token) : Move (List Node) :=
  if t.isMark ';' then .take (andThen (readProgram fin fuel) fun xs => done (x :: xs))
  else .refuse (.punctuation ';')

theorem readProgram_eq :
    readProgram fin (fuel + 1) = look (fin.close []) fun _ =>
      .keep (andThen (readExpression fin fuel) fun x =>
        look (fin.close [x]) (programMove fin fuel x)) := by
  funext ts
  cases ts with
  | nil => rfl
  | cons t ts =>
    simp only [readProgram, look, Move.go]
    refine congrArg (readExpression fin fuel (t :: ts) >>= ·) ?_
    funext ph
    obtain ⟨x, us⟩ := ph
    cases us with
    | nil => rfl
    | cons u us =>
      cases hMark : u.isMark ';' <;> simp only [look, Move.go, programMove, takeMark, hMark] <;> rfl

end Readers

-- ----------------------------------------------------------------------------
-- The fuel lasts
-- ----------------------------------------------------------------------------

/-- The outcome is a phrase with no more than `length` tokens behind it, or a fault of the text. -/
def Lasting {α : Type} (length : Nat) : Outcome (Phrase α) → Prop
  | .ok (_, rest) => rest.length ≤ length
  | .error h => h ≠ .outOfFuel

/-- In front of at most `n` tokens the reader does not run out of fuel, and adds no tokens. -/
def Sated {α : Type} (n : Nat) (p : Reader α) : Prop :=
  ∀ ts, ts.length ≤ n → Lasting ts.length (p ts)

/-- The reader that a look goes on with is sated, one token earlier if the look takes one. -/
def Move.Sated {α : Type} (n : Nat) : Move α → Prop
  | .keep p => Zaban.Sated n p
  | .take p => ∀ m, m + 1 ≤ n → Zaban.Sated m p
  | .refuse _ => True

section Sated

variable {α β : Type} {n : Nat}

theorem Lasting.mono {length length' : Nat} (hLe : length ≤ length')
    {o : Outcome (Phrase α)} (h : Lasting length o) : Lasting length' o := by
  cases o with
  | error => exact h
  | ok x => exact Nat.le_trans h hLe

theorem Sated.mono {m : Nat} (hLe : m ≤ n) {p : Reader α} (h : Sated n p) : Sated m p :=
  fun ts hTs => h ts (Nat.le_trans hTs hLe)

theorem sated_done (a : α) : Sated n (done a) := fun ts _ => Nat.le_refl ts.length

theorem Sated.andThen {p : Reader α} {f : α → Reader β} (hp : Sated n p)
    (hf : ∀ a, Sated n (f a)) : Sated n (andThen p f) := by
  intro ts hTs
  have hFirst := hp ts hTs
  unfold Reader.andThen
  cases hRead : p ts with
  | error h =>
    rw [hRead] at hFirst
    exact hFirst
  | ok x =>
    obtain ⟨a, rest⟩ := x
    rw [hRead] at hFirst
    have hLe : rest.length ≤ ts.length := hFirst
    exact (hf a rest (Nat.le_trans hLe hTs)).mono hLe

theorem sated_look {atEnd : Outcome (Phrase α)} {move : Token → Move α}
    (hEnd : Lasting 0 atEnd) (hMove : ∀ t, (move t).Sated n) : Sated n (look atEnd move) := by
  intro ts hTs
  cases ts with
  | nil => exact hEnd
  | cons t ts =>
    rw [List.length_cons] at hTs
    rw [look]
    have hNext := hMove t
    cases hMoveEq : move t with
    | keep p =>
      rw [hMoveEq] at hNext
      exact hNext (t :: ts) hTs
    | take p =>
      rw [hMoveEq] at hNext
      exact (hNext ts.length hTs ts (Nat.le_refl _)).mono (Nat.le_succ _)
    | refuse expected => rintro ⟨⟩

theorem lasting_missing (fin : Ending) (expected : Expected) :
    Lasting 0 (.error (fin.missing expected) : Outcome (Phrase α)) := by
  cases fin <;> rintro ⟨⟩

theorem lasting_close (fin : Ending) (a : α) : Lasting 0 (fin.close a) := by
  cases fin with
  | finished => exact Nat.le_refl 0
  | failed => rintro ⟨⟩

theorem takeMark_sated (fin : Ending) (mark : Char) : Sated n (takeMark fin mark) := by
  rw [takeMark_eq]
  refine sated_look (lasting_missing fin _) fun t => ?_
  split
  · exact fun _ _ => sated_done ()
  · trivial

theorem takeName_sated (fin : Ending) : Sated n (takeName fin) := by
  rw [takeName_eq]
  refine sated_look (lasting_missing fin _) fun t => ?_
  unfold nameMove
  split
  · exact fun _ _ => sated_done _
  · trivial

theorem readBridge_sated (fin : Ending) : Sated n (readBridge fin) := by
  rw [readBridge_eq]
  refine sated_look (lasting_missing fin _) fun t => ?_
  unfold bridgeMove
  split
  · exact sated_done ()
  · split
    · exact fun _ _ => sated_done ()
    · trivial

/-- A list takes a separator before every item but the first, so it needs little more fuel than
there are tokens. -/
theorem readItems_sated {fin : Ending} {item : Reader α} {separator stop : Char}
    (hItem : Sated n item) {fuel : Nat} {first : Bool}
    (hFuel : n + (if first then 2 else 1) ≤ fuel) :
    Sated n (readItems fin item separator stop fuel first) := by
  induction fuel generalizing n first with
  | zero => cases first <;> simp at hFuel
  | succ fuel ih =>
    have hMore : ∀ {m}, m ≤ n → m + 1 ≤ fuel →
        Sated m (itemThenMore fin item separator stop fuel) := by
      intro m hLe hM
      refine (hItem.mono hLe).andThen fun a => ?_
      have hRest : Sated m (readItems fin item separator stop fuel false) := ih (hItem.mono hLe) hM
      exact hRest.andThen fun as => sated_done _
    have hMove : ∀ {m}, m ≤ n → m + 1 ≤ fuel → ∀ t,
        (itemMove fin item separator stop fuel t).Sated m := by
      intro m hLe hM t
      unfold itemMove
      split
      · exact fun _ _ => sated_done []
      · exact hMore hLe hM
    cases first with
    | true =>
      simp only [if_true] at hFuel
      rw [readItems_first_eq]
      exact sated_look (lasting_missing fin _) (hMove (Nat.le_refl n) (by omega))
    | false =>
      simp only [Bool.false_eq_true, if_false] at hFuel
      rw [readItems_more_eq]
      refine sated_look (lasting_missing fin _) fun t => ?_
      unfold separatorMove
      split
      · exact fun _ _ => sated_done []
      · split
        · intro m hM
          have hEnd := hMore (Nat.zero_le n) (by omega) [] (Nat.le_refl 0)
          exact sated_look hEnd (hMove (by omega) (by omega))
        · trivial

end Sated

/-- How much fuel lets every reader read to the end of `n` tokens. -/
structure Fueled (fin : Ending) (fuel : Nat) : Prop where
  expression  : ∀ {n}, 4 * n + 4 ≤ fuel → Sated n (readExpression fin fuel)
  chain       : ∀ {n} threshold left, 4 * n + 1 ≤ fuel →
    Sated n (readChain fin fuel threshold left)
  arguments   : ∀ {n} callee, 4 * n + 1 ≤ fuel → Sated n (readArguments fin fuel callee)
  operand     : ∀ {n}, 4 * n + 3 ≤ fuel → Sated n (readOperand fin fuel)
  atom        : ∀ {n}, 4 * n + 2 ≤ fuel → Sated n (readAtomAt fin fuel)
  conditional : ∀ {n}, 4 * n + 5 ≤ fuel → Sated n (readConditional fin fuel)
  function    : ∀ {n}, 4 * n + 5 ≤ fuel → Sated n (readFunction fin fuel)

section Step

variable {fin : Ending} {fuel n : Nat}

theorem Fueled.chain_succ (h : Fueled fin fuel) (threshold : Nat) (left : Node)
    (hFuel : 4 * n + 1 ≤ fuel + 1) : Sated n (readChain fin (fuel + 1) threshold left) := by
  rw [readChain_eq]
  refine sated_look (lasting_close fin left) fun t => ?_
  unfold chainMove
  split
  · exact sated_done left
  · split
    · exact sated_done left
    · intro m hM
      refine (h.operand (by omega)).andThen fun next => ?_
      exact (h.chain _ next (by omega)).andThen fun right => h.chain _ _ (by omega)

theorem Fueled.arguments_succ (h : Fueled fin fuel) (callee : Node)
    (hFuel : 4 * n + 1 ≤ fuel + 1) : Sated n (readArguments fin (fuel + 1) callee) := by
  rw [readArguments_eq]
  refine sated_look (lasting_close fin callee) fun t => ?_
  unfold argumentsMove
  split
  · intro m hM
    refine (readItems_sated (h.expression (by omega)) (by simp; omega)).andThen fun args => ?_
    exact h.arguments _ (by omega)
  · exact sated_done callee

theorem Fueled.atom_succ (h : Fueled fin fuel) (hFuel : 4 * n + 2 ≤ fuel + 1) :
    Sated n (readAtomAt fin (fuel + 1)) := by
  rw [readAtomAt_eq]
  refine sated_look (lasting_missing fin _) fun t => ?_
  unfold atomMove
  split
  · intro m hM
    refine (h.expression (by omega)).andThen fun inner => ?_
    exact (takeMark_sated fin ')').andThen fun _ => sated_done inner
  · intro m hM
    refine (readItems_sated (h.expression (by omega)) (by simp; omega)).andThen fun body => ?_
    exact sated_done _
  · exact fun m hM => h.conditional (by omega)
  · exact fun m hM => h.function (by omega)
  · exact fun m hM => h.function (by omega)
  all_goals first
    | exact fun _ _ => sated_done _
    | trivial

theorem Fueled.conditional_succ (h : Fueled fin fuel) (hFuel : 4 * n + 5 ≤ fuel + 1) :
    Sated n (readConditional fin (fuel + 1)) := by
  have hExpression : ∀ {m}, m ≤ n → Sated m (readExpression fin fuel) := fun hLe =>
    h.expression (by omega)
  rw [readConditional_eq]
  refine (hExpression (Nat.le_refl n)).andThen fun test => ?_
  refine (readBridge_sated fin).andThen fun _ => ?_
  refine (hExpression (Nat.le_refl n)).andThen fun yes => ?_
  rw [readOtherwise_eq]
  refine sated_look (lasting_close fin _) fun t => ?_
  unfold otherwiseMove
  split
  · exact fun m hM => (hExpression (by omega)).andThen fun no => sated_done _
  · exact sated_done _

theorem Fueled.function_succ (h : Fueled fin fuel) (hFuel : 4 * n + 5 ≤ fuel + 1) :
    Sated n (readFunction fin (fuel + 1)) := by
  rw [readFunction_eq]
  refine (takeMark_sated fin '(').andThen fun _ => ?_
  refine (readItems_sated (takeName_sated fin) (by simp; omega)).andThen fun params => ?_
  exact (h.expression (by omega)).andThen fun body => sated_done _

theorem fueled_succ (h : Fueled fin fuel) : Fueled fin (fuel + 1) where
  expression hFuel := by
    rw [readExpression_eq]
    refine (h.operand (by omega)).andThen fun first => ?_
    exact (h.chain 0 first (by omega)).andThen fun chain => h.arguments chain (by omega)
  chain := h.chain_succ
  arguments := h.arguments_succ
  operand hFuel := by
    rw [readOperand_eq]
    exact (h.atom (by omega)).andThen fun atom => h.arguments atom (by omega)
  atom := h.atom_succ
  conditional := h.conditional_succ
  function := h.function_succ

end Step

/-- **The readers do not run out of fuel** if they are given enough. -/
theorem sated_readers (fin : Ending) (fuel : Nat) : Fueled fin fuel := by
  induction fuel with
  | zero => constructor <;> intros <;> omega
  | succ fuel ih => exact fueled_succ ih

theorem readProgram_sated {fin : Ending} {fuel n : Nat} (hFuel : 4 * n + 5 ≤ fuel) :
    Sated n (readProgram fin fuel) := by
  induction fuel generalizing n with
  | zero => omega
  | succ fuel ih =>
    rw [readProgram_eq]
    refine sated_look (lasting_close fin []) fun _ => ?_
    refine ((sated_readers fin fuel).expression (by omega)).andThen fun x => ?_
    refine sated_look (lasting_close fin [x]) fun t => ?_
    unfold programMove
    split
    · exact fun m hM => (ih (by omega)).andThen fun xs => sated_done _
    · trivial

end Zaban
