import Zaban.Eval.Natives
import Zaban.Eval.Semantics

/-!
# Evaluation one step at a time

`evaluate` gives the outcome of an evaluation at once. The **machine** of this
module takes the same evaluation apart into steps. Its state is

* what it is at (`Control`): an expression to evaluate, a name to look for in
  the frames, a value to call, a script to run, or a result to hand on;
* what waits for that result (`Pending`), in a stack: expressions of which a
  part is being evaluated, native functions that called a value, and the calls
  under way;
* the number of calls under way, which is counted up where a call is entered
  and down where it is left, be it with a value or with an error;
* the world.

The machine looks for a name by going outward one frame in each step, and knows
no bound on that walk. It is not limited in any other way either: the only
number it compares with is the limit on calls, and only where a call is made.
-/

namespace Zaban.Stepwise

-- ----------------------------------------------------------------------------
-- States
-- ----------------------------------------------------------------------------

/-- Why a name is looked for. -/
inductive Errand where
  /-- To know its value. -/
  | read
  /-- To assign a value to it, in frame `env`. -/
  | assign (env : FrameId) (value : Value)

/-- What the machine is at. -/
inductive Control where
  /-- Evaluates an expression in frame `env`. -/
  | eval (env : FrameId) (n : Node)
  /-- Looks for the frame that binds a name: at a frame, or behind the last one. -/
  | search (errand : Errand) (name : String) (place : Option FrameId)
  /-- Calls a value. -/
  | call (function : Value) (args : List Value)
  /-- Runs the script of a native function. -/
  | script (s : Script)
  /-- Hands on what something ended with. -/
  | give (result : Except EvalError Value)

/-- How the evaluation of an expression goes on with the value of one of its parts. -/
inductive Rest where
  /-- The value is assigned to a name. -/
  | assign (env : FrameId) (name : String)
  /-- The value is the left operand. -/
  | right (env : FrameId) (op : BinaryOp) (right : Node)
  /-- The value is the right operand. -/
  | apply (op : BinaryOp) (left : Value)
  /-- The value decides between two branches. -/
  | choose (env : FrameId) (yes : Node) (no : Option Node)
  /-- The value is that of one expression of a sequence, and these follow. -/
  | next (env : FrameId) (ns : List Node)
  /-- The value is called with the values of these arguments. -/
  | args (env : FrameId) (ns : List Node)
  /-- The value is that of an argument, behind the values `vs` and in front of these. -/
  | arg (env : FrameId) (function : Value) (vs : List Value) (ns : List Node)
  /-- The value is that of the whole expression. -/
  | hand

/-- What waits for a result. -/
inductive Pending where
  /-- The evaluation of the expression `n`. -/
  | within (n : Node) (rest : Rest)
  /-- A call, to be left. -/
  | leave
  /-- A native function that called a value. -/
  | await (next : Except EvalError Value → Script)

/-- A state of the machine. -/
structure State where
  control : Control
  stack : List Pending
  /-- How many calls are under way. -/
  depth : Nat
  world : World

/-- What the search for a name comes to when it has found a frame, or none. -/
def settle (w : World) (name : String) (found : Option FrameId) :
    Errand → Except EvalError Value × World
  | .read =>
    match found.bind fun b => (w.store.frame? b).bind (·.get? name) with
    | some value => (.ok value, w)
    | none => (.error (.undefinedVariable name), w)
  | .assign env value =>
    match found.or (if w.store.isRoot env then some env else none) with
    | some target => (.ok value, w.define target name value)
    | none => (.error (.undefinedVariable name), w)

namespace State

-- ----------------------------------------------------------------------------
-- Steps
-- ----------------------------------------------------------------------------

/-- Goes on with something else. -/
def goOn (m : State) (control : Control) : State :=
  { m with control }

/-- Ends what it is at. -/
def finish (m : State) (out : Except EvalError Value × World) : State :=
  { m with control := .give out.1, world := out.2 }

/-- Puts the evaluation of `n` off until a part of it is evaluated in frame `env`. -/
def descend (m : State) (n : Node) (rest : Rest) (env : FrameId) (part : Node) : State :=
  { m with control := .eval env part, stack := .within n rest :: m.stack }

/-- Evaluates what is left of the sequence `n`, behind an expression with the value `last`. -/
def follow (m : State) (n : Node) (env : FrameId) (last : Value) : List Node → State
  | [] => m.goOn (.give (.ok last))
  | x :: xs => m.descend n (.next env xs) env x

/-- Evaluates what is left of the arguments of the call `n`, behind arguments with the values `vs`,
and calls the function. -/
def gather (m : State) (n : Node) (env : FrameId) (f : Value) (vs : List Value) :
    List Node → State
  | [] => { m with control := .call f vs, stack := .within n .hand :: m.stack }
  | x :: xs => m.descend n (.arg env f vs xs) env x

/-- Evaluates the branch of the conditional `n` that may be absent. -/
def branch (m : State) (n : Node) (env : FrameId) : Option Node → State
  | none => m.goOn (.give (.ok .apuz))
  | some no => m.descend n .hand env no

/-- Begins to evaluate an expression. -/
def begin (m : State) (env : FrameId) : Node → State
  | .number value => m.goOn (.give (.ok (.number value)))
  | .string value => m.goOn (.give (.ok (.string value)))
  | .boolean value => m.goOn (.give (.ok (.boolean value)))
  | .var name => m.goOn (.search .read name (some env))
  | .assignment target value =>
    match target with
    | .var name => m.descend (.assignment (.var name) value) (.assign env name) env value
    | _ => m.goOn (.give (.error (.invalidTarget target)))
  | .binary op left right => m.descend (.binary op left right) (.right env op right) env left
  | .condition test yes no => m.descend (.condition test yes no) (.choose env yes no) env test
  | .program body => m.follow (.program body) env .apuz body
  | .lambda params body =>
    let (v, w) := m.world.close params body env
    m.finish (.ok v, w)
  | .call callee args => m.descend (.call callee args) (.args env args) env callee

/-- Goes on with the evaluation of `n` when a part of it has the value `v`. -/
def proceed (m : State) (n : Node) (v : Value) : Rest → State
  | .assign env name => m.goOn (.search (.assign env v) name (some env))
  | .right env op right =>
    match op.shortcut? v with
    | some u => m.goOn (.give (.ok u))
    | none => m.descend n (.apply op v) env right
  | .apply op left => m.goOn (.give (op.apply left v))
  | .choose env yes no =>
    if v.isFalse then m.branch n env no else m.descend n .hand env yes
  | .next env ns => m.follow n env v ns
  | .args env ns => m.gather n env v [] ns
  | .arg env f vs ns => m.gather n env f (vs ++ [v]) ns
  | .hand => m.goOn (.give (.ok v))

/-- Takes a result up where it was waited for. Only native functions look at errors. -/
def resume (m : State) (result : Except EvalError Value) : Pending → State
  | .within n rest =>
    match result with
    | .ok v => m.proceed n v rest
    | .error e => m.goOn (.give (.error e))
  | .leave => { m with control := .give result, depth := m.depth - 1 }
  | .await next => m.goOn (.script (next result))

/-- Looks for a name at a place. -/
def look (m : State) (errand : Errand) (name : String) : Option FrameId → State
  | none => m.finish (settle m.world name none errand)
  | some e =>
    match m.world.store.frame? e with
    | none => m.goOn (.search errand name none)
    | some f =>
      if f.binds name then m.finish (settle m.world name (some e) errand)
      else m.goOn (.search errand name f.outer)

/-- Enters a call. -/
def enter (m : State) (control : Control) (world : World) : State :=
  { control, stack := .leave :: m.stack, depth := m.depth + 1, world }

/-- Calls a value, unless it is no function or `limit` calls are under way. -/
def makeCall (limit : Nat) (m : State) (f : Value) (args : List Value) : State :=
  if !f.isCallable then m.goOn (.give (.error (.notCallable f)))
  else if limit ≤ m.depth then m.goOn (.give (.error (.callDepthExceeded limit)))
  else
    match f with
    | .closure c =>
      let (scope, w) := m.world.addFrame ⟨bindParams [] c.params args, some c.env⟩
      m.enter (.eval scope c.body) w
    | .native n =>
      match m.world.natives[n.id]? with
      | some body => m.enter (.script (body args)) m.world
      | none => m.goOn (.give (.error (.notCallable f)))
    | _ => m.goOn (.give (.error (.notCallable f)))

/-- Takes one step of a script. -/
def perform (m : State) : Script → State
  | .done result => m.goOn (.give result)
  | .call f args next => { m with control := .call f args, stack := .await next :: m.stack }
  | .write text next =>
    match m.world.write text with
    | (.ok (), world) => { m with control := .script next, world }
    | (.error e, world) => m.finish (.error e, world)
  | .clock next =>
    let (now, world) := m.world.readClock
    { m with control := .script (next now), world }

/-- One step. There is none where a result is at hand and nothing waits for it. -/
def step (limit : Nat) (m : State) : Option State :=
  match m.control with
  | .eval env n => some (m.begin env n)
  | .search errand name place => some (m.look errand name place)
  | .call f args => some (m.makeCall limit f args)
  | .script s => some (m.perform s)
  | .give result =>
    match m.stack with
    | [] => none
    | p :: stack => some ({ m with stack }.resume result p)

/-- The state after some steps, if there are that many. -/
def after (limit : Nat) (m : State) : (count : Nat) → Option State
  | 0 => some m
  | count + 1 => (m.step limit).bind fun m' => after limit m' count

-- ----------------------------------------------------------------------------
-- Runs
-- ----------------------------------------------------------------------------

/-- Some number of steps lead from `m` to `m'`. -/
def Reaches (limit : Nat) (m m' : State) : Prop :=
  ∃ count, m.after limit count = some m'

variable {limit : Nat} {m m' m'' : State}

theorem after_add (i j : Nat) :
    m.after limit (i + j) = (m.after limit i).bind fun m' => m'.after limit j := by
  induction i generalizing m with
  | zero => rw [Nat.zero_add, after, Option.bind_some]
  | succ i ih =>
    rw [Nat.add_right_comm, after, after, Option.bind_assoc]
    simp only [ih]

theorem Reaches.refl (m : State) : m.Reaches limit m :=
  ⟨0, rfl⟩

theorem Reaches.trans (h : m.Reaches limit m') (h' : m'.Reaches limit m'') :
    m.Reaches limit m'' := by
  obtain ⟨i, hi⟩ := h
  obtain ⟨j, hj⟩ := h'
  refine ⟨i + j, ?_⟩
  rw [after_add, hi, Option.bind_some, hj]

theorem Reaches.step (hStep : m.step limit = some m') (h : m'.Reaches limit m'') :
    m.Reaches limit m'' := by
  obtain ⟨j, hj⟩ := h
  refine ⟨j + 1, ?_⟩
  rw [after, hStep, Option.bind_some, hj]

/-- What holds at the start and is kept by every step holds at every moment. -/
theorem invariant_after {Inv : State → Prop} (hStep : ∀ m m', Inv m → m.step limit = some m' →
    Inv m') (h : Inv m) {count : Nat} (hAfter : m.after limit count = some m') : Inv m' := by
  induction count generalizing m with
  | zero => exact Option.some.inj hAfter ▸ h
  | succ count ih =>
    obtain ⟨m₁, hFirst, hRest⟩ := Option.bind_eq_some_iff.mp hAfter
    exact ih (hStep m m₁ h hFirst) hRest

/-- A run that has come to its end takes no further step. -/
theorem le_of_after {count k : Nat} (h : m.after limit count = some m')
    (hEnd : m'.step limit = none) (hAfter : m.after limit k = some m'') : k ≤ count := by
  rcases Nat.lt_or_ge count k with hMore | hLe
  · obtain ⟨j, rfl⟩ : ∃ j, k = count + (j + 1) := ⟨k - count - 1, by omega⟩
    rw [after_add, h, Option.bind_some, after, hEnd] at hAfter
    cases hAfter
  · exact hLe

/-- A run comes to one end only. -/
theorem Reaches.unique (h : m.Reaches limit m') (hEnd : m'.step limit = none)
    (h' : m.Reaches limit m'') (hEnd' : m''.step limit = none) : m' = m'' := by
  obtain ⟨i, hi⟩ := h
  obtain ⟨j, hj⟩ := h'
  have hSame : i = j := Nat.le_antisymm (le_of_after hj hEnd' hi) (le_of_after hi hEnd hj)
  rw [hSame, hj] at hi
  exact (Option.some.inj hi).symm

end State

end Zaban.Stepwise
