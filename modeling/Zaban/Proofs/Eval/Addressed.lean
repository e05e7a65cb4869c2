import Zaban.Eval.Natives
import Zaban.Eval.Run

/-!
# Names resolved in advance

A second evaluator, which never searches for a name. Before a program runs,
every occurrence of a name in it is given an **address**: how many frames to
climb, or that the name is global. The address is found by looking only at the
parameter lists of the functions around the occurrence, its **nest**, innermost
first. A program whose names have addresses is **code**.

The machine that runs code keeps beside the world

* the code of the body of every closure, and the nest of that body, by the
  identity of the closure;
* the **visits**: for every occurrence it comes to, its nest and its code, and
  the frame and the world in which it was evaluated. An assignment is visited
  once more when its right side has a value and the name is about to change.

The values and the world are those of the evaluator; the code of a closure is
not part of the value.
-/

namespace Zaban

/-- The parameter lists of the functions around an occurrence, innermost first. -/
abbrev Nest := List (List String)

/-- Where a name is found. -/
inductive Address where
  /-- In the frame that lies `count` frames further out. -/
  | climb (count : Nat)
  /-- In the root. -/
  | global
deriving DecidableEq

namespace Address

/-- The same place, seen from one frame further in. -/
def fromInside : Address → Address
  | climb count => .climb (count + 1)
  | global => .global

/-- The address of a name: the innermost function that has it as a parameter, or else the root. -/
def of (name : String) : Nest → Address
  | [] => .global
  | params :: nest => if name ∈ params then .climb 0 else (of name nest).fromInside

end Address

/-- The expression occurs in one of the programs, in the given nest. Of an assignment, only the
right side counts as a part: the target is not evaluated. -/
inductive Occurs (programs : Node → Prop) : Nest → Node → Prop where
  | whole {n : Node} (h : programs n) : Occurs programs [] n
  | value {nest : Nest} {t v : Node} (h : Occurs programs nest (.assignment t v)) :
      Occurs programs nest v
  | left {nest : Nest} {op : BinaryOp} {l r : Node} (h : Occurs programs nest (.binary op l r)) :
      Occurs programs nest l
  | right {nest : Nest} {op : BinaryOp} {l r : Node} (h : Occurs programs nest (.binary op l r)) :
      Occurs programs nest r
  | test {nest : Nest} {c y : Node} {no : Option Node}
      (h : Occurs programs nest (.condition c y no)) : Occurs programs nest c
  | yes {nest : Nest} {c y : Node} {no : Option Node}
      (h : Occurs programs nest (.condition c y no)) : Occurs programs nest y
  | no {nest : Nest} {c y n : Node} (h : Occurs programs nest (.condition c y (some n))) :
      Occurs programs nest n
  | item {nest : Nest} {body : List Node} {n : Node} (h : Occurs programs nest (.program body))
      (hItem : n ∈ body) : Occurs programs nest n
  | body {nest : Nest} {params : List String} {n : Node}
      (h : Occurs programs nest (.lambda params n)) : Occurs programs (params :: nest) n
  | callee {nest : Nest} {f : Node} {args : List Node} (h : Occurs programs nest (.call f args)) :
      Occurs programs nest f
  | arg {nest : Nest} {f n : Node} {args : List Node} (h : Occurs programs nest (.call f args))
      (hArg : n ∈ args) : Occurs programs nest n

-- ----------------------------------------------------------------------------
-- Code
-- ----------------------------------------------------------------------------

/-- An expression whose names have addresses. -/
inductive Code where
  | literal (value : Value)
  | read (name : String) (place : Address)
  /-- An assignment; `inside` tells whether it stands in a function. -/
  | write (name : String) (place : Address) (inside : Bool) (value : Code)
  /-- An assignment to what is not a name. -/
  | refused (target : Node)
  | binary (op : BinaryOp) (left right : Code)
  | condition (test yes : Code) (no : Option Code)
  | program (body : List Code)
  /-- A function, with its body as it was written and as code. -/
  | function (params : List String) (source : Node) (body : Code)
  | call (callee : Code) (args : List Code)

mutual

/-- Gives the names of an expression their addresses. -/
def Node.addressed (nest : Nest) : Node → Code
  | .number value => .literal (.number value)
  | .string value => .literal (.string value)
  | .boolean value => .literal (.boolean value)
  | .var name => .read name (.of name nest)
  | .assignment target value =>
    match target with
    | .var name => .write name (.of name nest) (!nest.isEmpty) (value.addressed nest)
    | _ => .refused target
  | .binary op left right => .binary op (left.addressed nest) (right.addressed nest)
  | .condition test yes no =>
    .condition (test.addressed nest) (yes.addressed nest) (addressedElse nest no)
  | .program body => .program (addressedAll nest body)
  | .lambda params body => .function params body (body.addressed (params :: nest))
  | .call callee args => .call (callee.addressed nest) (addressedAll nest args)

def addressedElse (nest : Nest) : Option Node → Option Code
  | none => none
  | some n => some (n.addressed nest)

def addressedAll (nest : Nest) : List Node → List Code
  | [] => []
  | n :: ns => n.addressed nest :: addressedAll nest ns

end

-- ----------------------------------------------------------------------------
-- The machine
-- ----------------------------------------------------------------------------

/-- What the machine knows of a closure: the nest of its body, and the body as code. -/
structure Resolved where
  nest : Nest
  body : Code

/-- An occurrence that the machine came to. -/
structure Visit where
  nest : Nest
  code : Code
  env : FrameId
  world : World

/-- The world, the closures by their identities and the visits, latest first. -/
structure Machine where
  world : World
  entries : Array Resolved
  visits : List Visit

/-- A computation of the machine. -/
abbrev MachineM := ExceptT EvalError (StateM Machine)

namespace MachineM

def ofStep {α : Type} (f : Machine → Except EvalError α × Machine) : MachineM α :=
  ExceptT.mk f

def runIn {α : Type} (x : MachineM α) (m : Machine) : Except EvalError α × Machine :=
  x.run m

@[simp] theorem runIn_ofStep {α : Type} (f : Machine → Except EvalError α × Machine)
    (m : Machine) : (ofStep f).runIn m = f m := rfl

/-- Does to the world what the evaluator would do. -/
def lift {α : Type} (x : EvalM α) : MachineM α :=
  ofStep fun m =>
    let (result, world) := x.runIn m.world
    (result, { m with world })

/-- Notes an occurrence. -/
def visit (nest : Nest) (code : Code) (env : FrameId) : MachineM Unit :=
  ofStep fun m => (.ok (), { m with visits := ⟨nest, code, env, m.world⟩ :: m.visits })

theorem runIn_bind {α β : Type} (x : MachineM α) (f : α → MachineM β) (m : Machine) :
    (x >>= f).runIn m =
      match x.runIn m with
      | (.ok a, m) => (f a).runIn m
      | (.error e, m) => (.error e, m) := by
  change (match x.run m with
    | (r, m) => (ExceptT.bindCont f r : StateM Machine _) m) = _
  unfold runIn
  cases x.run m with
  | mk r m => cases r <;> rfl

end MachineM

namespace Store

/-- The frame that lies `count` frames further out than `e`. -/
def climb (s : Store) : (count : Nat) → (e : FrameId) → Option FrameId
  | 0, e => some e
  | count + 1, e => (s.outer? e).bind (s.climb count)

/-- Does frame `e` bind the name? -/
def bindsAt (s : Store) (e : FrameId) (name : String) : Bool :=
  ((s.frame? e).map (·.binds name)).getD false

/-- The frame at an address, for a name that is to be read there. A global name is found only if
the root binds it. -/
def readPlace (s : Store) (root env : FrameId) (name : String) : Address → Option FrameId
  | .climb count => s.climb count env
  | .global => if s.bindsAt root name then some root else none

/-- The frame at an address, for a name that is to be changed there. A global name that the root
does not bind is new if the assignment stands outside every function. -/
def writePlace (s : Store) (root env : FrameId) (name : String) (inside : Bool) :
    Address → Option FrameId
  | .climb count => s.climb count env
  | .global => if s.bindsAt root name || !inside then some root else none

end Store

/-- How the machine calls values. -/
abbrev MachineCaller := Value → List Value → MachineM Value

-- ----------------------------------------------------------------------------
-- Running code
-- ----------------------------------------------------------------------------

mutual

/-- The value of code in frame `env`. -/
def evalCode (call : MachineCaller) (root : FrameId) (nest : Nest) (env : FrameId)
    (code : Code) : MachineM Value := do
  .visit nest code env
  match code with
  | .literal value => return value
  | .read name place =>
    .lift <| .ofStep fun w =>
      match (w.store.readPlace root env name place).bind fun e =>
        (w.store.frame? e).bind (·.get? name) with
      | some value => (.ok value, w)
      | none => (.error (.undefinedVariable name), w)
  | .write name place inside value =>
    let v ← evalCode call root nest env value
    .visit nest code env
    .lift <| .ofStep fun w =>
      match w.store.writePlace root env name inside place with
      | some e => (.ok v, w.define e name v)
      | none => (.error (.undefinedVariable name), w)
  | .refused target => throw (.invalidTarget target)
  | .binary op left right =>
    let l ← evalCode call root nest env left
    match op.shortcut? l with
    | some v => return v
    | none =>
      let r ← evalCode call root nest env right
      .lift <| .ofStep fun w => (op.apply l r, w)
  | .condition test yes no =>
    let v ← evalCode call root nest env test
    if v.isFalse then evalCodeElse call root nest env no else evalCode call root nest env yes
  | .program body => evalCodes call root nest env .apuz body
  | .function params source body =>
    .ofStep fun m =>
      let (v, world) := m.world.close params source env
      (.ok v, { m with world, entries := m.entries.push ⟨params :: nest, body⟩ })
  | .call callee args =>
    let f ← evalCode call root nest env callee
    let vs ← evalCodeArgs call root nest env args
    call f vs

def evalCodeElse (call : MachineCaller) (root : FrameId) (nest : Nest) (env : FrameId) :
    Option Code → MachineM Value
  | none => return .apuz
  | some c => evalCode call root nest env c

def evalCodes (call : MachineCaller) (root : FrameId) (nest : Nest) (env : FrameId)
    (last : Value) : List Code → MachineM Value
  | [] => return last
  | c :: cs => do
    let v ← evalCode call root nest env c
    evalCodes call root nest env v cs

def evalCodeArgs (call : MachineCaller) (root : FrameId) (nest : Nest) (env : FrameId) :
    List Code → MachineM (List Value)
  | [] => return []
  | c :: cs => do
    let v ← evalCode call root nest env c
    let vs ← evalCodeArgs call root nest env cs
    return v :: vs

end

/-- Runs the script of a native function. -/
def playScript (call : MachineCaller) : Script → MachineM Value
  | .done result => .lift <| .ofStep fun w => (result, w)
  | .call function args next =>
    .ofStep fun m =>
      let (result, m) := (call function args).runIn m
      (playScript call (next result)).runIn m
  | .write text next => do
    .lift <| .ofStep fun w => w.write text
    playScript call next
  | .clock next => do
    let now ← .lift <| .ofStep fun w =>
      let (now, w) := w.readClock
      (.ok now, w)
    playScript call (next now)

/-- What the machine knows of a closure. -/
def entryOf (c : Closure) : MachineM Resolved :=
  .ofStep fun m =>
    match m.entries[c.id]? with
    | some entry => (.ok entry, m)
    | none => (.error (.notCallable (.closure c)), m)

/-- Calls a value while `remaining` of the `limit` calls are still allowed. The body of a closure is
run as the code that its function became. -/
def callCode (root : FrameId) (limit : Nat) : (remaining : Nat) → MachineCaller
  | 0, f, _ => throw (if f.isCallable then .callDepthExceeded limit else .notCallable f)
  | remaining + 1, f, args =>
    match f with
    | .closure c => do
      let entry ← entryOf c
      let env ← .lift (enterClosure c args)
      evalCode (callCode root limit remaining) root entry.nest env entry.body
    | .native n =>
      .ofStep fun m =>
        match m.world.natives[n.id]? with
        | some body => (playScript (callCode root limit remaining) (body args)).runIn m
        | none => (.error (.notCallable f), m)
    | _ => throw (.notCallable f)

-- ----------------------------------------------------------------------------
-- Sessions
-- ----------------------------------------------------------------------------

/-- Parses a source text, resolves its names and runs it in the root. -/
def Machine.run (m : Machine) (config : Config) (root : FrameId) (source : String) :
    Except RunError Value × Machine :=
  match parse source with
  | .error error => (.error (.parse error), m)
  | .ok program =>
    let call := callCode root config.maxCallDepth config.maxCallDepth
    let (result, m) := (evalCode call root [] root (program.addressed [])).runIn m
    (result.mapError .eval, m)

/-- Runs source texts one after another, each with its own limits, whether or not the earlier ones
failed. -/
def Machine.session (m : Machine) (root : FrameId) :
    List (Config × String) → List (Except RunError Value) × Machine
  | [] => ([], m)
  | (config, source) :: steps =>
    let (result, m) := m.run config root source
    let (results, m) := m.session root steps
    (result :: results, m)

/-- Runs source texts one after another in one root. -/
def World.session (w : World) (root : FrameId) :
    List (Config × String) → List (Except RunError Value) × World
  | [] => ([], w)
  | (config, source) :: steps =>
    let (result, w) := w.run config root source
    let (results, w) := w.session root steps
    (result :: results, w)

/-- The world in which a session begins: one root, with the standard functions. -/
def World.fresh (sink : Sink) (clock : Nat → Nat) : World :=
  ((World.empty sink clock).addRoot.2).installStandard 0

/-- The machine before a session. -/
def Machine.fresh (sink : Sink) (clock : Nat → Nat) : Machine :=
  ⟨.fresh sink clock, #[], []⟩

end Zaban
