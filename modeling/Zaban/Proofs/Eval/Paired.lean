import Zaban.Proofs.Eval.Frames

/-!
# Computations in pairs

Two computations that are put together in the same way from the same steps can
be compared step by step. A **pairing** is a relation between computations
that holds of each step of an evaluation and itself, and is kept when one
computation follows another. It then holds of an expression and itself, even
if calls are made in two different ways on the two sides, as long as it holds
of the calls (`Pairing.node`). Nothing is said of calls here, since what
they do depends on the native functions.

A property of single computations that is kept in the same way is a pairing
that does not look at the second one.
-/

namespace Zaban

/-- The relation holds of every step of an evaluation, and is kept by one step after another. -/
structure Pairing (P : ∀ {α : Type}, EvalM α → EvalM α → Prop) : Prop where
  pure   : ∀ {α : Type} (a : α), P (pure a) (pure a)
  bind   : ∀ {α β : Type} {x y : EvalM α} {f g : α → EvalM β}, P x y → (∀ a, P (f a) (g a)) →
    P (x >>= f) (y >>= g)
  look   : ∀ (env : FrameId) (name : String),
    let step : World → Except EvalError Value × World := fun w =>
      match w.store.get? env name with
      | some value => (.ok value, w)
      | none => (.error (.undefinedVariable name), w)
    P (.ofStep step) (.ofStep step)
  assign : ∀ (env : FrameId) (name : String) (v : Value),
    P (.ofStep fun w => w.assign env name v) (.ofStep fun w => w.assign env name v)
  refuse : ∀ target : Node,
    P (throw (.invalidTarget target) : EvalM Value) (throw (.invalidTarget target))
  apply  : ∀ (op : BinaryOp) (l r : Value),
    P (.ofStep fun w => (op.apply l r, w)) (.ofStep fun w => (op.apply l r, w))
  close  : ∀ (params : List String) (body : Node) (env : FrameId),
    let step : World → Except EvalError Value × World := fun w =>
      let (v, w) := w.close params body env
      (.ok v, w)
    P (.ofStep step) (.ofStep step)

section Expressions

variable {P : ∀ {α : Type}, EvalM α → EvalM α → Prop} {call call' : Caller} {env : FrameId}

mutual

/-- **A pairing holds of every expression**, if it holds of the calls. -/
theorem Pairing.node (h : Pairing P) (hCall : ∀ f args, P (call f args) (call' f args)) :
    ∀ n, P (evalNode call env n) (evalNode call' env n)
  | .number x => by
    rw [evalNode, evalNode]
    exact h.pure _
  | .string s => by
    rw [evalNode, evalNode]
    exact h.pure _
  | .boolean b => by
    rw [evalNode, evalNode]
    exact h.pure _
  | .var name => by
    rw [evalNode, evalNode]
    exact h.look env name
  | .assignment target value => by
    cases target with
    | var name =>
      rw [evalNode, evalNode]
      exact h.bind (h.node hCall value) fun v => h.assign env name v
    | program | assignment | binary | condition | lambda | call | number | string | boolean =>
      rw [evalNode, evalNode]
      · exact h.refuse _
      all_goals
        intro name hEq
        cases hEq
  | .binary op left right => by
    rw [evalNode, evalNode]
    refine h.bind (h.node hCall left) fun l => ?_
    split
    · exact h.pure _
    · exact h.bind (h.node hCall right) fun r => h.apply op l r
  | .condition test yes no => by
    rw [evalNode, evalNode]
    refine h.bind (h.node hCall test) fun v => ?_
    split
    · exact h.branch hCall no
    · exact h.node hCall yes
  | .program body => by
    rw [evalNode, evalNode]
    exact h.sequence hCall _ body
  | .lambda params body => by
    rw [evalNode, evalNode]
    exact h.close params body env
  | .call callee args => by
    rw [evalNode, evalNode]
    refine h.bind (h.node hCall callee) fun f => ?_
    exact h.bind (h.args hCall args) fun vs => hCall f vs

theorem Pairing.branch (h : Pairing P) (hCall : ∀ f args, P (call f args) (call' f args)) :
    ∀ no, P (evalElse call env no) (evalElse call' env no)
  | none => by
    rw [evalElse, evalElse]
    exact h.pure _
  | some n => by
    rw [evalElse, evalElse]
    exact h.node hCall n

theorem Pairing.sequence (h : Pairing P) (hCall : ∀ f args, P (call f args) (call' f args))
    (last : Value) :
    ∀ ns, P (evalSequence call env last ns) (evalSequence call' env last ns)
  | [] => by
    rw [evalSequence, evalSequence]
    exact h.pure _
  | n :: ns => by
    rw [evalSequence, evalSequence]
    exact h.bind (h.node hCall n) fun v => h.sequence hCall v ns

theorem Pairing.args (h : Pairing P) (hCall : ∀ f args, P (call f args) (call' f args)) :
    ∀ ns, P (evalArgs call env ns) (evalArgs call' env ns)
  | [] => by
    rw [evalArgs, evalArgs]
    exact h.pure _
  | n :: ns => by
    rw [evalArgs, evalArgs]
    refine h.bind (h.node hCall n) fun v => ?_
    exact h.bind (h.args hCall ns) fun vs => h.pure _

end

end Expressions

end Zaban
