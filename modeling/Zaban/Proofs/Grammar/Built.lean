import Zaban.Proofs.Grammar.Readers

/-!
# Readers are built from their parts

The equations of `Zaban.Proofs.Grammar.Readers` take each reader apart into
others, with less fuel. `Built` says that this comes to an end: a reader is put
together, in finitely many steps, from readers that stop at once, from others
one after another, and from looks at the next token.

All readers of the grammar are built (`built_readers`, `readProgram_built`).
What holds of the parts, and is kept when they are put together, is therefore
proved of every reader by one induction over `Built`.
-/

namespace Zaban

open Reader

/-- The reader that a look goes on with, unless it refuses the token. -/
def Move.next? {α : Type} : Move α → Option (Reader α)
  | .keep next => some next
  | .take next => some next
  | .refuse _ => none

/-- The reader is put together from parts, which know the end of the text as `fin`. -/
inductive Built (fin : Ending) : {α : Type} → Reader α → Prop where
  | cut {α : Type} : Built fin (fun _ => .error .outOfFuel : Reader α)
  | missing {α : Type} (expected : Expected) :
      Built fin (fun _ => .error (fin.missing expected) : Reader α)
  | close {α : Type} (a : α) : Built fin (fun _ => fin.close a)
  | done {α : Type} (a : α) : Built fin (Reader.done a)
  | andThen {α β : Type} {p : Reader α} {f : α → Reader β} (hp : Built fin p)
      (hf : ∀ a, Built fin (f a)) : Built fin (Reader.andThen p f)
  | look {α : Type} {p : Reader α} {move : Token → Move α} (hEnd : Built fin p)
      (hMove : ∀ t next, (move t).next? = some next → Built fin next) :
      Built fin (Reader.look (p []) move)

/-- The reader that a look goes on with is built. -/
def Move.Built {α : Type} (fin : Ending) (m : Move α) : Prop :=
  ∀ next, m.next? = some next → Zaban.Built fin next

section Parts

variable {α : Type} {fin : Ending} {p : Reader α}

theorem Move.Built.keep (h : Zaban.Built fin p) : (Move.keep p).Built fin := by
  rintro _ ⟨⟩
  exact h

theorem Move.Built.take (h : Zaban.Built fin p) : (Move.take p).Built fin := by
  rintro _ ⟨⟩
  exact h

theorem Move.Built.refuse (expected : Expected) : (Move.refuse expected : Move α).Built fin := by
  rintro _ ⟨⟩

theorem built_look_missing {expected : Expected} {move : Token → Move α}
    (hMove : ∀ t, (move t).Built fin) :
    Built fin (look (.error (fin.missing expected)) move) :=
  .look (.missing expected) hMove

theorem built_look_close {a : α} {move : Token → Move α} (hMove : ∀ t, (move t).Built fin) :
    Built fin (look (fin.close a) move) :=
  .look (.close a) hMove

theorem takeMark_built (mark : Char) : Built fin (takeMark fin mark) := by
  rw [takeMark_eq]
  refine built_look_missing fun t => ?_
  split
  · exact .take (.done ())
  · exact .refuse _

theorem takeName_built : Built fin (takeName fin) := by
  rw [takeName_eq]
  refine built_look_missing fun t => ?_
  unfold nameMove
  split
  · exact .take (.done _)
  · exact .refuse _

theorem readBridge_built : Built fin (readBridge fin) := by
  rw [readBridge_eq]
  refine built_look_missing fun t => ?_
  unfold bridgeMove
  split
  · exact .keep (.done ())
  · split
    · exact .take (.done ())
    · exact .refuse _

theorem readItems_built {separator stop : Char} (hItem : Built fin p) (fuel : Nat) (first : Bool) :
    Built fin (readItems fin p separator stop fuel first) := by
  induction fuel generalizing first with
  | zero => exact .cut
  | succ fuel ih =>
    have hMore : Built fin (itemThenMore fin p separator stop fuel) :=
      .andThen hItem fun a => .andThen (ih false) fun as => .done _
    have hMove : ∀ t, (itemMove fin p separator stop fuel t).Built fin := by
      intro t
      unfold itemMove
      split
      · exact .take (.done [])
      · exact .keep hMore
    cases first with
    | true =>
      rw [readItems_first_eq]
      exact built_look_missing hMove
    | false =>
      rw [readItems_more_eq]
      refine built_look_missing fun t => ?_
      unfold separatorMove
      split
      · exact .take (.done [])
      · split
        · exact .take (.look hMore hMove)
        · exact .refuse _

end Parts

-- ----------------------------------------------------------------------------
-- The readers
-- ----------------------------------------------------------------------------

/-- Every reader with the given fuel is built. -/
structure BuiltReaders (fin : Ending) (fuel : Nat) : Prop where
  expression  : Built fin (readExpression fin fuel)
  chain       : ∀ threshold left, Built fin (readChain fin fuel threshold left)
  arguments   : ∀ callee, Built fin (readArguments fin fuel callee)
  operand     : Built fin (readOperand fin fuel)
  atom        : Built fin (readAtomAt fin fuel)
  conditional : Built fin (readConditional fin fuel)
  function    : Built fin (readFunction fin fuel)

section Step

variable {fin : Ending} {fuel : Nat}

theorem BuiltReaders.chain_succ (h : BuiltReaders fin fuel) (threshold : Nat) (left : Node) :
    Built fin (readChain fin (fuel + 1) threshold left) := by
  rw [readChain_eq]
  refine built_look_close fun t => ?_
  unfold chainMove
  split
  · exact .keep (.done left)
  · split
    · exact .keep (.done left)
    · refine .take (.andThen h.operand fun next => ?_)
      exact .andThen (h.chain _ next) fun right => h.chain _ _

theorem BuiltReaders.arguments_succ (h : BuiltReaders fin fuel) (callee : Node) :
    Built fin (readArguments fin (fuel + 1) callee) := by
  rw [readArguments_eq]
  refine built_look_close fun t => ?_
  unfold argumentsMove
  split
  · exact .take (.andThen (readItems_built h.expression fuel true) fun args => h.arguments _)
  · exact .keep (.done callee)

theorem BuiltReaders.atom_succ (h : BuiltReaders fin fuel) :
    Built fin (readAtomAt fin (fuel + 1)) := by
  rw [readAtomAt_eq]
  refine built_look_missing fun t => ?_
  unfold atomMove
  split
  · refine .take (.andThen h.expression fun inner => ?_)
    exact .andThen (takeMark_built ')') fun _ => .done inner
  · exact .take (.andThen (readItems_built h.expression fuel true) fun body => .done _)
  · exact .take h.conditional
  · exact .take h.function
  · exact .take h.function
  all_goals first
    | exact .take (.done _)
    | exact .refuse _

theorem BuiltReaders.conditional_succ (h : BuiltReaders fin fuel) :
    Built fin (readConditional fin (fuel + 1)) := by
  rw [readConditional_eq]
  refine .andThen h.expression fun test => ?_
  refine .andThen readBridge_built fun _ => ?_
  refine .andThen h.expression fun yes => ?_
  rw [readOtherwise_eq]
  refine built_look_close fun t => ?_
  unfold otherwiseMove
  split
  · exact .take (.andThen h.expression fun no => .done _)
  · exact .keep (.done _)

theorem BuiltReaders.function_succ (h : BuiltReaders fin fuel) :
    Built fin (readFunction fin (fuel + 1)) := by
  rw [readFunction_eq]
  refine .andThen (takeMark_built '(') fun _ => ?_
  refine .andThen (readItems_built takeName_built fuel true) fun params => ?_
  exact .andThen h.expression fun body => .done _

theorem builtReaders_succ (h : BuiltReaders fin fuel) : BuiltReaders fin (fuel + 1) where
  expression := by
    rw [readExpression_eq]
    refine .andThen h.operand fun first => ?_
    exact .andThen (h.chain 0 first) fun chain => h.arguments chain
  chain := h.chain_succ
  arguments := h.arguments_succ
  operand := by
    rw [readOperand_eq]
    exact .andThen h.atom fun atom => h.arguments atom
  atom := h.atom_succ
  conditional := h.conditional_succ
  function := h.function_succ

end Step

/-- Without fuel, a reader of atoms looks for a token before it is cut off. -/
theorem readAtomAt_zero (fin : Ending) : readAtomAt fin 0 =
    look (.error (fin.missing .expression)) fun _ => .keep fun _ => .error .outOfFuel := by
  funext ts
  cases ts <;> rfl

/-- **Every reader is built from parts.** -/
theorem built_readers (fin : Ending) (fuel : Nat) : BuiltReaders fin fuel := by
  induction fuel with
  | zero =>
    refine ⟨.cut, fun _ _ => .cut, fun _ => .cut, .cut, ?_, .cut, .cut⟩
    rw [readAtomAt_zero]
    exact built_look_missing fun _ => .keep .cut
  | succ fuel ih => exact builtReaders_succ ih

theorem readProgram_built (fin : Ending) (fuel : Nat) : Built fin (readProgram fin fuel) := by
  induction fuel with
  | zero => exact .cut
  | succ fuel ih =>
    rw [readProgram_eq]
    refine built_look_close fun _ => .keep ?_
    refine .andThen (built_readers fin fuel).expression fun x => ?_
    refine built_look_close fun t => ?_
    unfold programMove
    split
    · exact .take (.andThen ih fun xs => .done _)
    · exact .refuse _

end Zaban
