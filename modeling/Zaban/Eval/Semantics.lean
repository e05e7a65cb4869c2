import Zaban.Eval.Arithmetic
import Zaban.Eval.World

/-!
# Evaluation

`evalNode` evaluates an expression in a frame, by recursion on the expression.
It does not know how values are called: it is given that as a function, so
the recursion never leaves the expression, although a closure that it calls
may have a body of any size.

`callWithin` calls a value while at most `remaining` calls may be under way
inside one another, this one included. It hands `evalNode` the function for
one call less, by recursion on that number. Evaluation therefore always ends:
the pair of the calls still allowed and the expression at hand decreases in
the lexicographic order. A call beyond the limit is an error of the language.

Errors leave the world as it was when they arose.
-/

namespace Zaban

/-- A computation in the world that ends with a value of `α` or an error. -/
abbrev EvalM := ExceptT EvalError (StateM World)

namespace EvalM

/-- The computation that does `f` to the world. -/
def ofStep {α : Type} (f : World → Except EvalError α × World) : EvalM α :=
  ExceptT.mk f

/-- Runs a computation in a world. -/
def runIn {α : Type} (x : EvalM α) (w : World) : Except EvalError α × World :=
  x.run w

@[simp] theorem runIn_ofStep {α : Type} (f : World → Except EvalError α × World) (w : World) :
    (ofStep f).runIn w = f w := rfl

@[simp] theorem runIn_pure {α : Type} (a : α) (w : World) :
    (pure a : EvalM α).runIn w = (.ok a, w) := rfl

@[simp] theorem runIn_throw {α : Type} (e : EvalError) (w : World) :
    (throw e : EvalM α).runIn w = (.error e, w) := rfl

/-- What follows an error is not run. -/
theorem runIn_bind {α β : Type} (x : EvalM α) (f : α → EvalM β) (w : World) :
    (x >>= f).runIn w =
      match x.runIn w with
      | (.ok a, w) => (f a).runIn w
      | (.error e, w) => (.error e, w) := by
  change (match x.run w with
    | (r, w) => (ExceptT.bindCont f r : StateM World _) w) = _
  unfold runIn
  cases x.run w with
  | mk r w => cases r <;> rfl

end EvalM

/-- How values are called. -/
abbrev Caller := Value → List Value → EvalM Value

-- ----------------------------------------------------------------------------
-- Expressions
-- ----------------------------------------------------------------------------

mutual

/-- The value of an expression in frame `env`. -/
@[specialize]
def evalNode (call : Caller) (env : FrameId) : Node → EvalM Value
  | .number value => return .number value
  | .string value => return .string value
  | .boolean value => return .boolean value
  | .var name =>
    EvalM.ofStep fun w =>
      match w.store.get? env name with
      | some value => (.ok value, w)
      | none => (.error (.undefinedVariable name), w)
  | .assignment target value =>
    match target with
    | .var name => do
      let v ← evalNode call env value
      EvalM.ofStep fun w => w.assign env name v
    | _ => throw (.invalidTarget target)
  | .binary op left right => do
    let l ← evalNode call env left
    match op.shortcut? l with
    | some v => return v
    | none =>
      let r ← evalNode call env right
      EvalM.ofStep fun w => (op.apply l r, w)
  | .condition test yes no => do
    let v ← evalNode call env test
    if v.isFalse then evalElse call env no else evalNode call env yes
  | .program body => evalSequence call env .apuz body
  | .lambda params body =>
    EvalM.ofStep fun w =>
      let (v, w) := w.close params body env
      (.ok v, w)
  | .call callee args => do
    let f ← evalNode call env callee
    let vs ← evalArgs call env args
    call f vs

/-- The value of a branch that may be absent. -/
@[specialize]
def evalElse (call : Caller) (env : FrameId) : Option Node → EvalM Value
  | none => return .apuz
  | some n => evalNode call env n

/-- The value of the last of some expressions evaluated in turn, or `last` if there are none. -/
@[specialize]
def evalSequence (call : Caller) (env : FrameId) (last : Value) : List Node → EvalM Value
  | [] => return last
  | n :: ns => do
    let v ← evalNode call env n
    evalSequence call env v ns

/-- The values of some expressions evaluated in turn. -/
@[specialize]
def evalArgs (call : Caller) (env : FrameId) : List Node → EvalM (List Value)
  | [] => return []
  | n :: ns => do
    let v ← evalNode call env n
    let vs ← evalArgs call env ns
    return v :: vs

end

-- ----------------------------------------------------------------------------
-- Calls
-- ----------------------------------------------------------------------------

/-- Runs the script of a native function. -/
@[specialize]
def runScript (call : Caller) : Script → EvalM Value
  | .done result => EvalM.ofStep fun w => (result, w)
  | .call function args next =>
    EvalM.ofStep fun w =>
      let (result, w) := (call function args).runIn w
      (runScript call (next result)).runIn w
  | .write text next => do
    EvalM.ofStep fun w => w.write text
    runScript call next
  | .clock next => do
    let now ← EvalM.ofStep fun w =>
      let (now, w) := w.readClock
      (.ok now, w)
    runScript call (next now)

/-- Binds parameters to arguments, over earlier bindings. A parameter without an argument is false,
and arguments without a parameter are dropped. -/
def bindParams : List (String × Value) → List String → List Value → List (String × Value)
  | bindings, [], _ => bindings
  | bindings, p :: ps, args =>
    bindParams (Frame.bind p (args.head?.getD .apuz) bindings) ps args.tail

/-- Enters a closure: adds the frame of the call. -/
def enterClosure (c : Closure) (args : List Value) : EvalM FrameId :=
  EvalM.ofStep fun w =>
    let (e, w) := w.addFrame ⟨bindParams [] c.params args, some c.env⟩
    (.ok e, w)

/-- Calls a value while `remaining` of the `limit` calls are still allowed. -/
def callWithin (limit : Nat) : (remaining : Nat) → Caller
  | 0, f, _ => throw (if f.isCallable then .callDepthExceeded limit else .notCallable f)
  | remaining + 1, f, args =>
    match f with
    | .closure c => do
      let scope ← enterClosure c args
      evalNode (callWithin limit remaining) scope c.body
    | .native n =>
      EvalM.ofStep fun w =>
        match w.natives[n.id]? with
        | some body => (runScript (callWithin limit remaining) (body args)).runIn w
        | none => (.error (.notCallable f), w)
    | _ => throw (.notCallable f)

-- ----------------------------------------------------------------------------
-- Evaluation from outside
-- ----------------------------------------------------------------------------

/-- The limits of an evaluation. -/
structure Config where
  /-- How many calls may be under way inside one another. -/
  maxCallDepth : Nat
deriving DecidableEq

/-- The limits where none are asked for. -/
def Config.standard : Config := ⟨10000⟩

/-- Evaluates an expression in frame `env`, outside every call. -/
def evaluate (config : Config) (env : FrameId) (n : Node) : EvalM Value :=
  evalNode (callWithin config.maxCallDepth config.maxCallDepth) env n

/-- Calls a value, outside every other call. -/
def callValue (config : Config) : Caller :=
  callWithin config.maxCallDepth config.maxCallDepth

end Zaban
