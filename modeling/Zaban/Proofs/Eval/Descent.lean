import Mathlib.Data.List.Chain
import Zaban.Proofs.Eval.Stepwise

/-!
# What is under way descends

At every moment of a run, the machine is in the middle of some expressions,
calls and native functions, one inside the other. Each is given a pair of
numbers: the calls that are still allowed where it is, and its size. A part of
an expression is smaller than the expression. The body of a call may be larger
than anything around it, since it comes out of the frames; but it has one call
less at its disposal. So the pairs **descend** in the lexicographic order, from
the outermost to the innermost (`State.Descends`).

Every step keeps this (`Descends.step`). The invariant has a second part: where
the evaluation of an expression waits for a part of it, what it still has to
evaluate is smaller than the expression.
-/

namespace Zaban

-- ----------------------------------------------------------------------------
-- Sizes
-- ----------------------------------------------------------------------------

mutual

/-- The number of nodes of an expression. -/
def Node.size : Node → Nat
  | .program body => Node.sizes body + 1
  | .assignment target value => target.size + value.size + 1
  | .binary _ left right => left.size + right.size + 1
  | .condition test yes no => test.size + yes.size + Node.branchSize no + 1
  | .lambda _ body => body.size + 1
  | .call callee args => callee.size + Node.sizes args + 1
  | .var _ => 1
  | .number _ => 1
  | .string _ => 1
  | .boolean _ => 1

/-- The number of nodes of some expressions together. -/
def Node.sizes : List Node → Nat
  | [] => 0
  | n :: ns => n.size + Node.sizes ns

/-- The number of nodes of a branch that may be absent. -/
def Node.branchSize : Option Node → Nat
  | none => 0
  | some n => n.size

end

theorem Node.size_pos (n : Node) : 0 < n.size := by
  cases n <;> simp only [Node.size] <;> omega

namespace Stepwise

/-- The size of what is still to be evaluated of an expression. -/
def Rest.size : Rest → Nat
  | .assign _ _ => 0
  | .right _ _ n => n.size
  | .apply _ _ => 0
  | .choose _ yes no => yes.size + Node.branchSize no
  | .next _ ns => Node.sizes ns
  | .args _ ns => Node.sizes ns
  | .arg _ _ _ ns => Node.sizes ns
  | .hand => 0

/-- The size of what the machine is at. A call is smaller than every expression and every script
that makes it, whatever is called. -/
def Control.size? : Control → Option Nat
  | .eval _ n => some n.size
  | .call _ _ => some 0
  | .script _ => some 1
  | .search _ _ _ => none
  | .give _ => none

-- ----------------------------------------------------------------------------
-- The order
-- ----------------------------------------------------------------------------

/-- The lexicographic order. -/
abbrev Below : Nat × Nat → Nat × Nat → Prop :=
  Prod.Lex (· < ·) (· < ·)

/-- What waits in a stack, with `depth` calls under way at its top: the calls still allowed there,
and the size. -/
def underWay (limit : Nat) : (depth : Nat) → List Pending → List (Nat × Nat)
  | _, [] => []
  | depth, .within n _ :: stack => (limit - depth, n.size) :: underWay limit depth stack
  | depth, .leave :: stack => (limit - (depth - 1), 0) :: underWay limit (depth - 1) stack
  | depth, .await _ :: stack => (limit - depth, 1) :: underWay limit depth stack

/-- What the machine is at and what waits, from the innermost outward. -/
def State.underWay (limit : Nat) (m : State) : List (Nat × Nat) :=
  (m.control.size?.map fun size => (limit - m.depth, size)).toList ++
    Stepwise.underWay limit m.depth m.stack

/-- **What is under way descends**, and what is still to be evaluated of an expression is smaller
than the expression. -/
structure State.Descends (limit : Nat) (m : State) : Prop where
  chain : (m.underWay limit).IsChain Below
  parts : ∀ n rest, Pending.within n rest ∈ m.stack → rest.size < n.size

/-- Something of the given size would descend here. -/
structure State.Admits (limit : Nat) (m : State) (size : Nat) : Prop where
  chain : ((limit - m.depth, size) :: Stepwise.underWay limit m.depth m.stack).IsChain Below
  parts : ∀ n rest, Pending.within n rest ∈ m.stack → rest.size < n.size

section Steps

variable {limit : Nat} {m m' : State} {n : Node} {env : FrameId}

/-- What the machine is at is admitted. -/
theorem State.Descends.admits {size : Nat} (h : m.Descends limit)
    (hSize : m.control.size? = some size) : m.Admits limit size := by
  have hChain := h.chain
  rw [State.underWay, hSize] at hChain
  exact ⟨hChain, h.parts⟩

/-- What is admitted may be gone on with. -/
theorem State.Admits.goOn {size : Nat} (h : m.Admits limit size) {control : Control}
    (hSize : control.size? = some size) (world : World) :
    ({ m with control, world } : State).Descends limit := by
  refine ⟨?_, h.parts⟩
  rw [State.underWay, hSize]
  exact h.chain

theorem State.Descends.outer (h : m.Descends limit) :
    (Stepwise.underWay limit m.depth m.stack).IsChain Below :=
  h.chain.right_of_append

/-- What has no size may always be gone on with. -/
theorem State.Descends.light (h : m.Descends limit) {control : Control}
    (hSize : control.size? = none) (world : World) :
    ({ m with control, world } : State).Descends limit := by
  refine ⟨?_, h.parts⟩
  rw [State.underWay, hSize]
  exact h.outer

/-- Going on inside something larger, which waits. -/
theorem State.Admits.push {size inner : Nat} (h : m.Admits limit size) (hLess : inner < size)
    {p : Pending} {control : Control} (hSize : control.size? = some inner)
    (hUnderWay : Stepwise.underWay limit m.depth (p :: m.stack) =
      (limit - m.depth, size) :: Stepwise.underWay limit m.depth m.stack)
    (hPart : ∀ n rest, p = .within n rest → rest.size < n.size) :
    ({ m with control, stack := p :: m.stack } : State).Descends limit := by
  constructor
  · rw [State.underWay, hSize]
    simp only [Option.map_some, Option.toList_some, List.singleton_append, hUnderWay]
    exact List.isChain_cons_cons.mpr ⟨.right _ hLess, h.chain⟩
  · intro n rest hMem
    rcases List.mem_cons.mp hMem with rfl | hMem
    · exact hPart n rest rfl
    · exact h.parts n rest hMem

theorem State.Admits.descend (h : m.Admits limit n.size) {part : Node} (hPart : part.size < n.size)
    {rest : Rest} (hRest : rest.size < n.size) : (m.descend n rest env part).Descends limit := by
  refine h.push hPart rfl rfl ?_
  rintro _ _ ⟨⟩
  exact hRest

theorem State.Admits.give (h : m.Admits limit n.size) (r : Except EvalError Value) :
    (m.goOn (.give r)).Descends limit :=
  ⟨h.chain.tail, h.parts⟩

theorem State.Admits.follow (h : m.Admits limit n.size) (last : Value) {ns : List Node}
    (hSizes : Node.sizes ns < n.size) : (m.follow n env last ns).Descends limit := by
  cases ns with
  | nil => exact h.give _
  | cons x xs =>
    rw [Node.sizes] at hSizes
    exact h.descend (by omega) (by simp only [Rest.size]; omega)

theorem State.Admits.gather (h : m.Admits limit n.size) (f : Value) (vs : List Value)
    {ns : List Node} (hSizes : Node.sizes ns < n.size) :
    (m.gather n env f vs ns).Descends limit := by
  cases ns with
  | nil =>
    refine h.push n.size_pos rfl rfl ?_
    rintro _ _ ⟨⟩
    exact n.size_pos
  | cons x xs =>
    rw [Node.sizes] at hSizes
    exact h.descend (by omega) (by simp only [Rest.size]; omega)

theorem State.Admits.branch (h : m.Admits limit n.size) {no : Option Node}
    (hSize : Node.branchSize no < n.size) : (m.branch n env no).Descends limit := by
  cases no with
  | none => exact h.give _
  | some no => exact h.descend hSize n.size_pos

/-- Every part of an expression is smaller than the expression. -/
theorem State.Admits.begin (h : m.Admits limit n.size) : (m.begin env n).Descends limit := by
  cases n with
  | number | string | boolean | var => exact ⟨h.chain.tail, h.parts⟩
  | lambda params body => exact ⟨h.chain.tail, h.parts⟩
  | assignment target value =>
    cases target with
    | var name => exact h.descend (by simp only [Node.size]; omega) (Node.size_pos _)
    | program | assignment | binary | condition | lambda | call | number | string | boolean =>
      exact h.give _
  | binary op left right =>
    exact h.descend (by simp only [Node.size]; omega) (by simp only [Node.size, Rest.size]; omega)
  | condition test yes no =>
    exact h.descend (by simp only [Node.size]; omega) (by simp only [Node.size, Rest.size]; omega)
  | program body => exact h.follow _ (by simp only [Node.size]; omega)
  | call callee args =>
    exact h.descend (by simp only [Node.size]; omega) (by simp only [Node.size, Rest.size]; omega)

theorem State.Admits.proceed (h : m.Admits limit n.size) (v : Value) {rest : Rest}
    (hRest : rest.size < n.size) : (m.proceed n v rest).Descends limit := by
  cases rest with
  | assign env name => exact ⟨h.chain.tail, h.parts⟩
  | right env op right =>
    rw [State.proceed]
    split
    · exact h.give _
    · exact h.descend hRest n.size_pos
  | apply op left => exact h.give _
  | choose env yes no =>
    rw [Rest.size] at hRest
    rw [State.proceed]
    split
    · exact h.branch (by omega)
    · exact h.descend (by omega) n.size_pos
  | next env ns => exact h.follow v hRest
  | args env ns => exact h.gather v [] hRest
  | arg env f vs ns => exact h.gather f (vs ++ [v]) hRest
  | hand => exact h.give _

/-- What waits at the top of the stack is gone on with, in its own place. -/
theorem resume_descends {p : Pending} {stack : List Pending} {r : Except EvalError Value}
    (h : m.Descends limit) (hStack : m.stack = p :: stack) :
    (({ m with stack } : State).resume r p).Descends limit := by
  have hOuter := h.outer
  have hParts : ∀ n rest, Pending.within n rest ∈ stack → rest.size < n.size :=
    fun n rest hMem => h.parts n rest (hStack ▸ List.mem_cons_of_mem p hMem)
  rw [hStack] at hOuter
  cases p with
  | within n rest =>
    have hAdmits : ({ m with stack } : State).Admits limit n.size := ⟨hOuter, hParts⟩
    cases r with
    | ok v => exact hAdmits.proceed v (h.parts n rest (hStack ▸ List.mem_cons_self))
    | error e => exact hAdmits.give _
  | leave => exact ⟨hOuter.tail, hParts⟩
  | await next => exact ⟨hOuter, hParts⟩

theorem look_descends (h : m.Descends limit) (errand : Errand) (name : String)
    (place : Option FrameId) : (m.look errand name place).Descends limit := by
  cases place with
  | none => exact h.light rfl _
  | some e =>
    rw [State.look]
    split
    · exact h.light rfl _
    · split
      · exact h.light rfl _
      · exact h.light rfl _

/-- **The body of a call has one call less at its disposal**, of whatever size it is. -/
theorem State.Admits.enter (h : m.Admits limit 0) (hDepth : m.depth < limit) {size : Nat}
    {control : Control} (hSize : control.size? = some size) (world : World) :
    (m.enter control world).Descends limit := by
  constructor
  · have hAllowed : limit - (m.depth + 1) < limit - m.depth := by omega
    rw [State.underWay, State.enter, hSize]
    exact List.isChain_cons_cons.mpr ⟨.left _ _ hAllowed, h.chain⟩
  · intro n rest hMem
    rcases List.mem_cons.mp hMem with hLeave | hMem
    · cases hLeave
    · exact h.parts n rest hMem

theorem makeCall_descends (h : m.Descends limit) (hSize : m.control.size? = some 0) (f : Value)
    (args : List Value) : (m.makeCall limit f args).Descends limit := by
  unfold State.makeCall
  split
  · exact h.light rfl _
  · split
    · exact h.light rfl _
    · rename_i hDepth
      have hRoom : m.depth < limit := Nat.lt_of_not_le hDepth
      cases f with
      | closure c => exact (h.admits hSize).enter hRoom rfl _
      | native n =>
        dsimp only
        split
        · exact (h.admits hSize).enter hRoom rfl _
        · exact h.light rfl _
      | number | string | boolean => exact h.light rfl _

theorem perform_descends (h : m.Descends limit) (hSize : m.control.size? = some 1) (s : Script) :
    (m.perform s).Descends limit := by
  have hAdmits := h.admits hSize
  cases s with
  | done r => exact h.light rfl _
  | call f args next =>
    refine hAdmits.push Nat.zero_lt_one rfl rfl ?_
    rintro _ _ ⟨⟩
  | write text next =>
    rw [State.perform]
    split
    · exact hAdmits.goOn rfl _
    · exact h.light rfl _
  | clock next => exact hAdmits.goOn rfl _

/-- **Every step keeps what is under way descending.** -/
theorem State.Descends.step (h : m.Descends limit) (hStep : m.step limit = some m') :
    m'.Descends limit := by
  rw [State.step] at hStep
  split at hStep
  · rename_i env n hControl
    cases hStep
    exact (h.admits (congrArg Control.size? hControl)).begin
  · cases hStep
    exact look_descends h _ _ _
  · rename_i f args hControl
    cases hStep
    exact makeCall_descends h (congrArg Control.size? hControl) f args
  · rename_i s hControl
    cases hStep
    exact perform_descends h (congrArg Control.size? hControl) s
  · split at hStep
    · cases hStep
    · rename_i hStack
      cases hStep
      exact resume_descends h hStack

/-- What starts with nothing waiting descends. -/
theorem descends_start (control : Control) (depth : Nat) (w : World) :
    (⟨control, [], depth, w⟩ : State).Descends limit := by
  refine ⟨?_, fun n rest hMem => by cases hMem⟩
  rw [State.underWay, Stepwise.underWay, List.append_nil]
  cases control.size? with
  | none => exact .nil
  | some size => exact .singleton _

/-- **What is under way descends at every moment of a run.** -/
theorem State.Descends.after (h : m.Descends limit) {count : Nat}
    (hAfter : m.after limit count = some m') : m'.Descends limit :=
  State.invariant_after (fun _ _ hm hStep => hm.step hStep) h hAfter

end Steps

end Stepwise

end Zaban
