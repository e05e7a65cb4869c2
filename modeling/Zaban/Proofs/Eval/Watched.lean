import Zaban.Eval.Run
import Zaban.Proofs.Eval.Forest

/-!
# Watched evaluation

An evaluator that does what the evaluator does and writes down what happens to
the frames. Beside the world it keeps a **history**: the moments at which
frames were added or names were set, each with the frames as they were right
after it. There are three kinds of moments:

* an assignment was evaluated in some frame, and its name was set or refused;
* a closure was called, and the frame of the call is there. This moment is
  noted before the body of the closure is run;
* the host did something between evaluations.

The second part is a **session**: whatever a host does with frames, values and
expressions, one operation after another, whether or not they succeed.
-/

namespace Zaban

/-- What can happen to the frames. -/
inductive Happening where
  /-- An assignment to the name was evaluated in frame `env`. -/
  | assigned (env : FrameId) (name : String)
  /-- The closure was called, and `scope` is the frame of the call. -/
  | entered (scope : FrameId) (closure : Closure)
  /-- The host added a frame or bound or set a name. -/
  | hosted

/-- Something that happened, and the frames right after it. -/
structure Moment where
  what : Happening
  store : Store

/-- The world, and the moments so far, latest first. -/
structure Watch where
  world : World
  history : List Moment

/-- Goes on to a world that something has led to. -/
def Watch.note (m : Watch) (what : Happening) (world : World) : Watch :=
  ⟨world, ⟨what, world.store⟩ :: m.history⟩

/-- A computation that is watched. -/
abbrev WatchM := ExceptT EvalError (StateM Watch)

namespace WatchM

def ofStep {α : Type} (f : Watch → Except EvalError α × Watch) : WatchM α :=
  ExceptT.mk f

def runIn {α : Type} (x : WatchM α) (m : Watch) : Except EvalError α × Watch :=
  x.run m

@[simp] theorem runIn_ofStep {α : Type} (f : Watch → Except EvalError α × Watch) (m : Watch) :
    (ofStep f).runIn m = f m := rfl

/-- Does to the world what the evaluator would do, where no frame changes. -/
def lift {α : Type} (x : EvalM α) : WatchM α :=
  ofStep fun m =>
    let (result, world) := x.runIn m.world
    (result, { m with world })

/-- Does to the world what the evaluator would do, and notes it, also when it fails. -/
def noting {α : Type} (what : Happening) (x : EvalM α) : WatchM α :=
  ofStep fun m =>
    let (result, world) := x.runIn m.world
    (result, m.note what world)

theorem runIn_bind {α β : Type} (x : WatchM α) (f : α → WatchM β) (m : Watch) :
    (x >>= f).runIn m =
      match x.runIn m with
      | (.ok a, m) => (f a).runIn m
      | (.error e, m) => (.error e, m) := by
  change (match x.run m with
    | (r, m) => (ExceptT.bindCont f r : StateM Watch _) m) = _
  unfold runIn
  cases x.run m with
  | mk r m => cases r <;> rfl

end WatchM

/-- How values are called while watching. -/
abbrev WatchedCaller := Value → List Value → WatchM Value

-- ----------------------------------------------------------------------------
-- Expressions
-- ----------------------------------------------------------------------------

mutual

/-- The value of an expression in frame `env`. -/
def watchNode (call : WatchedCaller) (env : FrameId) : Node → WatchM Value
  | .number value => return .number value
  | .string value => return .string value
  | .boolean value => return .boolean value
  | .var name =>
    .lift <| .ofStep fun w =>
      match w.store.get? env name with
      | some value => (.ok value, w)
      | none => (.error (.undefinedVariable name), w)
  | .assignment target value =>
    match target with
    | .var name => do
      let v ← watchNode call env value
      .noting (.assigned env name) <| .ofStep fun w => w.assign env name v
    | _ => throw (.invalidTarget target)
  | .binary op left right => do
    let l ← watchNode call env left
    match op.shortcut? l with
    | some v => return v
    | none =>
      let r ← watchNode call env right
      .lift <| .ofStep fun w => (op.apply l r, w)
  | .condition test yes no => do
    let v ← watchNode call env test
    if v.isFalse then watchElse call env no else watchNode call env yes
  | .program body => watchSequence call env .apuz body
  | .lambda params body =>
    .lift <| .ofStep fun w =>
      let (v, w) := w.close params body env
      (.ok v, w)
  | .call callee args => do
    let f ← watchNode call env callee
    let vs ← watchArgs call env args
    call f vs

def watchElse (call : WatchedCaller) (env : FrameId) : Option Node → WatchM Value
  | none => return .apuz
  | some n => watchNode call env n

def watchSequence (call : WatchedCaller) (env : FrameId) (last : Value) :
    List Node → WatchM Value
  | [] => return last
  | n :: ns => do
    let v ← watchNode call env n
    watchSequence call env v ns

def watchArgs (call : WatchedCaller) (env : FrameId) : List Node → WatchM (List Value)
  | [] => return []
  | n :: ns => do
    let v ← watchNode call env n
    let vs ← watchArgs call env ns
    return v :: vs

end

-- ----------------------------------------------------------------------------
-- Calls
-- ----------------------------------------------------------------------------

/-- Runs the script of a native function. -/
def watchScript (call : WatchedCaller) : Script → WatchM Value
  | .done result => .lift <| .ofStep fun w => (result, w)
  | .call function args next =>
    .ofStep fun m =>
      let (result, m) := (call function args).runIn m
      (watchScript call (next result)).runIn m
  | .write text next => do
    .lift <| .ofStep fun w => w.write text
    watchScript call next
  | .clock next => do
    let now ← .lift <| .ofStep fun w =>
      let (now, w) := w.readClock
      (.ok now, w)
    watchScript call (next now)

/-- Enters a closure, and notes that it is entered. -/
def watchEntry (c : Closure) (args : List Value) : WatchM FrameId :=
  .ofStep fun m =>
    match (enterClosure c args).runIn m.world with
    | (.ok scope, world) => (.ok scope, m.note (.entered scope c) world)
    | (.error e, world) => (.error e, { m with world })

/-- Calls a value while `remaining` of the `limit` calls are still allowed. -/
def watchCall (limit : Nat) : (remaining : Nat) → WatchedCaller
  | 0, f, _ => throw (if f.isCallable then .callDepthExceeded limit else .notCallable f)
  | remaining + 1, f, args =>
    match f with
    | .closure c => do
      let scope ← watchEntry c args
      watchNode (watchCall limit remaining) scope c.body
    | .native n =>
      .ofStep fun m =>
        match m.world.natives[n.id]? with
        | some body => (watchScript (watchCall limit remaining) (body args)).runIn m
        | none => (.error (.notCallable f), m)
    | _ => throw (.notCallable f)

-- ----------------------------------------------------------------------------
-- Sessions
-- ----------------------------------------------------------------------------

/-- What a host can do. -/
inductive Operation where
  /-- Adds a root. -/
  | root
  /-- Adds a frame around which `outer` lies. -/
  | enclose (outer : FrameId)
  | define (frame : FrameId) (name : String) (value : Value)
  | install (frame : FrameId) (name : String) (body : NativeBody)
  | set (frame : FrameId) (name : String) (value : Value)
  | evaluate (config : Config) (env : FrameId) (program : Node)
  | call (config : Config) (function : Value) (args : List Value)

/-- The world after an operation, however it ended. -/
def World.perform (w : World) : Operation → World
  | .root => w.addRoot.2
  | .enclose outer => (w.enclose outer).2
  | .define frame name value => w.define frame name value
  | .install frame name body => w.install frame name body
  | .set frame name value => (w.assign frame name value).2
  | .evaluate config env program => (w.evaluate config env program).2
  | .call config function args => (w.call config function args).2

/-- The world after some operations. -/
def World.after (w : World) (ops : List Operation) : World :=
  ops.foldl World.perform w

namespace Watch

/-- Watches an operation. -/
def perform (m : Watch) : Operation → Watch
  | .evaluate config env program =>
    ((watchNode (watchCall config.maxCallDepth config.maxCallDepth) env program).runIn m).2
  | .call config function args =>
    ((watchCall config.maxCallDepth config.maxCallDepth function args).runIn m).2
  | op => m.note .hosted (m.world.perform op)

/-- Watches some operations. -/
def after (m : Watch) (ops : List Operation) : Watch :=
  ops.foldl perform m

/-- Nothing has happened yet. -/
def start (sink : Sink) (clock : Nat → Nat) : Watch :=
  ⟨.empty sink clock, []⟩

/-- Is the frame that of a call? -/
def Called (m : Watch) (e : FrameId) : Prop :=
  ∃ k ∈ m.history, ∃ c, k.what = .entered e c

end Watch

/-- A host works with the frames that exist and the values there are. It does not bind names in the
frame of a call, and the native functions are `wan` and `time`. -/
def Operation.Permitted (m : Watch) : Operation → Prop
  | .root => True
  | .enclose outer => outer < m.world.store.next
  | .define frame _ value =>
    frame < m.world.store.next ∧ ¬ m.Called frame ∧ value.Live m.world.store
  | .install frame _ body =>
    frame < m.world.store.next ∧ ¬ m.Called frame ∧ (body = Script.wan ∨ body = Script.time)
  | .set frame _ value => frame < m.world.store.next ∧ value.Live m.world.store
  | .evaluate _ env _ => env < m.world.store.next
  | .call _ function args =>
    function.Live m.world.store ∧ ∀ a ∈ args, a.Live m.world.store

/-- Each of the operations is permitted when it is its turn. -/
def Watch.Permits (m : Watch) : List Operation → Prop
  | [] => True
  | op :: ops => op.Permitted m ∧ (m.perform op).Permits ops

end Zaban
