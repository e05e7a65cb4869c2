import Mathlib.Logic.Relation
import Zaban.Eval.Semantics

/-!
# Courses, and a machine that counts calls

`evalNode` is given the function with which it calls values, and `callWithin`
is told how many calls are still allowed. Neither of them counts. This module
describes the same evaluation as an evaluator does it that has a counter: one
number for all that it does, counted up where a body is entered and down where
it is left.

The **course** of a computation is what it does, one thing after another: it
looks at the world and changes it, evaluates a function expression, calls a
value, or is done. A course says nothing about how a value is called.
`Course.evaluate` is the course of an expression. A native function is given by
a course for every list of arguments, so it may do with the world what it
likes, and has two ways to use the evaluator: a step `call`, and an expression
evaluated on the way, `(Course.evaluate env n).andThen …`. A **host** says which
native functions there are; the scripts of a world are one (`World.scripts`).

The **machine** (`Course.State`) follows a course. When it makes a call, it puts
the rest of the course aside, counts up and follows the body; when the body is
done, it counts down and takes the rest up again. It refuses a call where the
counter has reached the limit, and knows no other bound.

The main statements tie it to the evaluator:

* `outcome_evaluate`   — the course of an expression comes to what `evalNode`
  comes to, however values are called;
* `callIn_scripts`     — with the scripts of the world as host, values are
  called as by `callWithin`;
* `calls_return`, `course_returns` — a call, and whatever course stands before
  the rest, comes to its end, and the machine goes on with the rest, the same
  calls waiting and the counter where it was.
-/

namespace Zaban

theorem EvalM.eq_of_runIn {α : Type} {x y : EvalM α} (h : ∀ w, x.runIn w = y.runIn w) : x = y :=
  funext h

/-- What a computation does until it ends with a value of `α` or an error. -/
inductive Course (α : Type) where
  | done (result : Except EvalError α)
  /-- Looks at the world, changes it, and goes on with what it saw. -/
  | act (change : World → World) (next : World → Course α)
  /-- Evaluates a function expression in frame `env`. -/
  | close (params : List String) (body : Node) (env : FrameId) (next : Value → Course α)
  /-- Calls a value, and goes on with what the call ends with. -/
  | call (function : Value) (args : List Value) (next : Except EvalError Value → Course α)

namespace Course

variable {α β : Type}

/-- One course after another. The second one is told how the first one ended. -/
def andThen : Course α → (Except EvalError α → Course β) → Course β
  | done result, rest => rest result
  | act change next, rest => .act change fun w => (next w).andThen rest
  | close params body env next, rest => .close params body env fun v => (next v).andThen rest
  | call f args next, rest => .call f args fun r => (next r).andThen rest

/-- Goes on with a value, and hands on an error. -/
def onValue (f : α → Course β) : Except EvalError α → Course β
  | .ok a => f a
  | .error e => .done (.error e)

instance : Monad Course where
  pure a := .done (.ok a)
  bind c f := c.andThen (onValue f)

/-- The course that does `f` to the world. -/
def ofStep (f : World → Except EvalError α × World) : Course α :=
  .act (fun w => (f w).2) fun w => .done (f w).1

-- ----------------------------------------------------------------------------
-- Expressions and scripts
-- ----------------------------------------------------------------------------

mutual

/-- The course of an expression in frame `env`. -/
def evaluate (env : FrameId) : Node → Course Value
  | .number value => return .number value
  | .string value => return .string value
  | .boolean value => return .boolean value
  | .var name =>
    ofStep fun w =>
      match w.store.get? env name with
      | some value => (.ok value, w)
      | none => (.error (.undefinedVariable name), w)
  | .assignment target value =>
    match target with
    | .var name => do
      let v ← evaluate env value
      ofStep fun w => w.assign env name v
    | _ => .done (.error (.invalidTarget target))
  | .binary op left right => do
    let l ← evaluate env left
    match op.shortcut? l with
    | some v => return v
    | none =>
      let r ← evaluate env right
      .done (op.apply l r)
  | .condition test yes no => do
    let v ← evaluate env test
    if v.isFalse then evaluateElse env no else evaluate env yes
  | .program body => evaluateSequence env .apuz body
  | .lambda params body => .close params body env fun v => return v
  | .call callee args => do
    let f ← evaluate env callee
    let vs ← evaluateArgs env args
    .call f vs .done

def evaluateElse (env : FrameId) : Option Node → Course Value
  | none => return .apuz
  | some n => evaluate env n

def evaluateSequence (env : FrameId) (last : Value) : List Node → Course Value
  | [] => return last
  | n :: ns => do
    let v ← evaluate env n
    evaluateSequence env v ns

def evaluateArgs (env : FrameId) : List Node → Course (List Value)
  | [] => return []
  | n :: ns => do
    let v ← evaluate env n
    let vs ← evaluateArgs env ns
    return v :: vs

end

/-- The course of a script. -/
def ofScript : Script → Course Value
  | .done result => .done result
  | .call f args next => .call f args fun r => ofScript (next r)
  | .write text next =>
    .act (fun w => (w.write text).2) fun w =>
      match (w.write text).1 with
      | .ok () => ofScript next
      | .error e => .done (.error e)
  | .clock next => .act (fun w => w.readClock.2) fun w => ofScript (next w.readClock.1)

/-- The native functions at hand in a world, by their identities. -/
abbrev Host := World → Nat → Option (List Value → Course Value)

end Course

/-- The native functions that a world holds. -/
def World.scripts : Course.Host := fun w id =>
  w.natives[id]?.map fun body args => Course.ofScript (body args)

namespace Course

variable {α β : Type}

/-- The body of a function, and the world in which it begins. -/
def body? (host : Host) (f : Value) (args : List Value) (w : World) :
    Option (Course Value × World) :=
  match f with
  | .closure c =>
    let (scope, w) := w.addFrame ⟨bindParams [] c.params args, some c.env⟩
    some (evaluate scope c.body, w)
  | .native n => (host w n.id).map fun body => (body args, w)
  | _ => none

-- ----------------------------------------------------------------------------
-- Outcomes
-- ----------------------------------------------------------------------------

/-- What a course comes to if values are called by `call`. -/
def outcome (call : Caller) : Course α → EvalM α
  | .done result => .ofStep fun w => (result, w)
  | .act change next => .ofStep fun w => ((next w).outcome call).runIn (change w)
  | .close params body env next =>
    .ofStep fun w =>
      let (v, w) := w.close params body env
      ((next v).outcome call).runIn w
  | .call f args next =>
    .ofStep fun w =>
      let (r, w) := (call f args).runIn w
      ((next r).outcome call).runIn w

/-- Calls a value while `remaining` of the `limit` calls are still allowed. -/
def callIn (host : Host) (limit : Nat) : (remaining : Nat) → Caller
  | 0, f, _ => throw (if f.isCallable then .callDepthExceeded limit else .notCallable f)
  | remaining + 1, f, args =>
    .ofStep fun w =>
      match body? host f args w with
      | some (body, w) => (body.outcome (callIn host limit remaining)).runIn w
      | none => (.error (.notCallable f), w)

section Outcomes

variable (call : Caller)

theorem outcome_andThen (c : Course α) (rest : Except EvalError α → Course β) (w : World) :
    ((c.andThen rest).outcome call).runIn w =
      ((rest ((c.outcome call).runIn w).1).outcome call).runIn ((c.outcome call).runIn w).2 := by
  induction c generalizing w with
  | done result => rfl
  | act change next ih => exact ih w (change w)
  | close params body env next ih => exact ih _ _
  | call f args next ih => exact ih _ _

theorem outcome_pure (a : α) : (pure a : Course α).outcome call = pure a := rfl

theorem outcome_ofStep (f : World → Except EvalError α × World) :
    (ofStep f).outcome call = .ofStep f := rfl

theorem outcome_bind (c : Course α) (f : α → Course β) :
    (c >>= f).outcome call = c.outcome call >>= fun a => (f a).outcome call := by
  refine EvalM.eq_of_runIn fun w => ?_
  change ((c.andThen (onValue f)).outcome call).runIn w = _
  rw [outcome_andThen, EvalM.runIn_bind]
  rcases (c.outcome call).runIn w with ⟨r, w'⟩
  cases r <;> rfl

mutual

/-- **The course of an expression comes to its value**, however values are called. -/
theorem outcome_evaluate (env : FrameId) :
    ∀ n, (evaluate env n).outcome call = evalNode call env n
  | .number x => by rw [evaluate, evalNode, outcome_pure]
  | .string s => by rw [evaluate, evalNode, outcome_pure]
  | .boolean b => by rw [evaluate, evalNode, outcome_pure]
  | .var name => by
    rw [evaluate, evalNode]
    exact outcome_ofStep call _
  | .assignment target value => by
    cases target with
    | var name =>
      rw [evaluate, evalNode, outcome_bind, outcome_evaluate env value]
      simp only [outcome_ofStep]
    | program | assignment | binary | condition | lambda | call | number | string | boolean =>
      rw [evaluate, evalNode]
      · rfl
      all_goals
        intro name hEq
        cases hEq
  | .binary op left right => by
    rw [evaluate, evalNode, outcome_bind, outcome_evaluate env left]
    congr 1
    funext l
    cases op.shortcut? l with
    | some v => exact outcome_pure call v
    | none =>
      simp only [outcome_bind, outcome_evaluate env right]
      rfl
  | .condition test yes no => by
    rw [evaluate, evalNode, outcome_bind, outcome_evaluate env test]
    congr 1
    funext v
    split
    · rw [outcome_evaluateElse env no]
    · rw [outcome_evaluate env yes]
  | .program body => by rw [evaluate, evalNode, outcome_evaluateSequence env _ body]
  | .lambda params body => by
    rw [evaluate, evalNode]
    rfl
  | .call callee args => by
    rw [evaluate, evalNode, outcome_bind, outcome_evaluate env callee]
    congr 1
    funext f
    rw [outcome_bind, outcome_evaluateArgs env args]
    rfl

theorem outcome_evaluateElse (env : FrameId) :
    ∀ no, (evaluateElse env no).outcome call = evalElse call env no
  | none => by rw [evaluateElse, evalElse, outcome_pure]
  | some n => by rw [evaluateElse, evalElse, outcome_evaluate env n]

theorem outcome_evaluateSequence (env : FrameId) (last : Value) :
    ∀ ns, (evaluateSequence env last ns).outcome call = evalSequence call env last ns
  | [] => by rw [evaluateSequence, evalSequence, outcome_pure]
  | n :: ns => by
    rw [evaluateSequence, evalSequence, outcome_bind, outcome_evaluate env n]
    congr 1
    funext v
    rw [outcome_evaluateSequence env v ns]

theorem outcome_evaluateArgs (env : FrameId) :
    ∀ ns, (evaluateArgs env ns).outcome call = evalArgs call env ns
  | [] => by rw [evaluateArgs, evalArgs, outcome_pure]
  | n :: ns => by
    rw [evaluateArgs, evalArgs, outcome_bind, outcome_evaluate env n]
    congr 1
    funext v
    rw [outcome_bind, outcome_evaluateArgs env ns]
    rfl

end

/-- The course of a script comes to what the script comes to. -/
theorem outcome_ofScript (s : Script) : (ofScript s).outcome call = runScript call s := by
  refine EvalM.eq_of_runIn fun w => ?_
  induction s generalizing w with
  | done result => rfl
  | call f args next ih => exact ih _ _
  | write text next ih =>
    rw [ofScript, runScript, EvalM.runIn_bind, outcome, EvalM.runIn_ofStep, EvalM.runIn_ofStep]
    rcases w.write text with ⟨r, w'⟩
    cases r with
    | ok u => exact ih w'
    | error e => rfl
  | clock next ih => exact ih _ _

end Outcomes

/-- With the scripts of the world as host, values are called as the evaluator calls them. -/
theorem callIn_scripts (limit remaining : Nat) :
    callIn World.scripts limit remaining = callWithin limit remaining := by
  induction remaining with
  | zero => rfl
  | succ remaining ih =>
    funext f args
    refine EvalM.eq_of_runIn fun w => ?_
    cases f with
    | closure c =>
      rw [callIn, callWithin, EvalM.runIn_ofStep, ← ih, EvalM.runIn_bind]
      simp only [body?, outcome_evaluate]
      rfl
    | native n =>
      rw [callIn, callWithin, EvalM.runIn_ofStep, EvalM.runIn_ofStep]
      simp only [body?, World.scripts]
      cases w.natives[n.id]? with
      | none => rfl
      | some body =>
        simp only [Option.map_some, outcome_ofScript, ih]
    | number | string | boolean => rfl

-- ----------------------------------------------------------------------------
-- The machine
-- ----------------------------------------------------------------------------

/-- A state of the machine. -/
structure State where
  course : Course Value
  /-- What is to follow the calls under way, one rest for each of them, innermost first. -/
  waiting : List (Except EvalError Value → Course Value)
  /-- The counter. -/
  depth : Nat
  world : World

namespace State

/-- Calls a value, unless it is no function or the counter has reached the limit. -/
def makeCall (host : Host) (limit : Nat) (m : State) (f : Value) (args : List Value)
    (next : Except EvalError Value → Course Value) : State :=
  if !f.isCallable then { m with course := next (.error (.notCallable f)) }
  else if limit ≤ m.depth then { m with course := next (.error (.callDepthExceeded limit)) }
  else
    match body? host f args m.world with
    | some (body, world) =>
      { course := body, waiting := next :: m.waiting, depth := m.depth + 1, world }
    | none => { m with course := next (.error (.notCallable f)) }

/-- One step. There is none where a course is done and nothing waits for it. -/
def step (host : Host) (limit : Nat) (m : State) : Option State :=
  match m.course with
  | .done result =>
    match m.waiting with
    | [] => none
    | next :: waiting => some { m with course := next result, waiting, depth := m.depth - 1 }
  | .act change next => some { m with course := next m.world, world := change m.world }
  | .close params body env next =>
    let (v, world) := m.world.close params body env
    some { m with course := next v, world }
  | .call f args next => some (m.makeCall host limit f args next)

/-- Some number of steps lead from `m` to `m'`. -/
def Reaches (host : Host) (limit : Nat) : State → State → Prop :=
  Relation.ReflTransGen fun m m' => m.step host limit = some m'

variable {host : Host} {limit : Nat} {m m' m'' : State}

theorem Reaches.refl (m : State) : m.Reaches host limit m :=
  Relation.ReflTransGen.refl

theorem Reaches.trans (h : m.Reaches host limit m') (h' : m'.Reaches host limit m'') :
    m.Reaches host limit m'' :=
  Relation.ReflTransGen.trans h h'

theorem Reaches.step (hStep : m.step host limit = some m') (h : m'.Reaches host limit m'') :
    m.Reaches host limit m'' :=
  Relation.ReflTransGen.head hStep h

/-- A run comes to one end only. -/
theorem Reaches.unique (h : m.Reaches host limit m') (hEnd : m'.step host limit = none)
    (h' : m.Reaches host limit m'') (hEnd' : m''.step host limit = none) : m' = m'' := by
  have hStay : ∀ {k k' : State}, k.step host limit = none → k.Reaches host limit k' → k = k' := by
    intro k k' hNone hReaches
    rcases Relation.ReflTransGen.cases_head hReaches with rfl | ⟨k₁, hStep, -⟩
    · rfl
    · rw [hNone] at hStep
      cases hStep
  have hUnique : Relator.RightUnique fun k k' : State => k.step host limit = some k' := by
    intro k k₁ k₂ h₁ h₂
    exact Option.some.inj (h₁.symm.trans h₂)
  rcases Relation.ReflTransGen.total_of_right_unique hUnique h h' with hTo | hTo
  · exact hStay hEnd hTo
  · exact (hStay hEnd' hTo).symm

/-- The kinds of steps there are. -/
inductive Step (host : Host) (limit : Nat) : State → State → Prop where
  | act (change : World → World) (next : World → Course Value)
      (waiting : List (Except EvalError Value → Course Value)) (depth : Nat) (w : World) :
      Step host limit ⟨.act change next, waiting, depth, w⟩ ⟨next w, waiting, depth, change w⟩
  | close (params : List String) (body : Node) (env : FrameId) (next : Value → Course Value)
      (waiting : List (Except EvalError Value → Course Value)) (depth : Nat) (w : World) :
      Step host limit ⟨.close params body env next, waiting, depth, w⟩
        ⟨next (w.close params body env).1, waiting, depth, (w.close params body env).2⟩
  /-- A call is refused: the value is no function, or the counter has reached the limit. -/
  | refuse (f : Value) (args : List Value) (next : Except EvalError Value → Course Value)
      (waiting : List (Except EvalError Value → Course Value)) (depth : Nat) (w : World)
      (e : EvalError) (hError : e = .notCallable f ∨ e = .callDepthExceeded limit) :
      Step host limit ⟨.call f args next, waiting, depth, w⟩
        ⟨next (.error e), waiting, depth, w⟩
  /-- A body is entered. -/
  | enter (f : Value) (args : List Value) (next : Except EvalError Value → Course Value)
      (waiting : List (Except EvalError Value → Course Value)) (depth : Nat) (w : World)
      (body : Course Value) (w' : World) (hBody : body? host f args w = some (body, w'))
      (hRoom : depth < limit) :
      Step host limit ⟨.call f args next, waiting, depth, w⟩
        ⟨body, next :: waiting, depth + 1, w'⟩
  /-- A body is left, with a value or with an error. -/
  | leave (result : Except EvalError Value) (next : Except EvalError Value → Course Value)
      (waiting : List (Except EvalError Value → Course Value)) (depth : Nat) (w : World) :
      Step host limit ⟨.done result, next :: waiting, depth, w⟩
        ⟨next result, waiting, depth - 1, w⟩

theorem Step.of_step (h : m.step host limit = some m') : Step host limit m m' := by
  obtain ⟨course, waiting, depth, w⟩ := m
  cases course with
  | done result =>
    cases waiting with
    | nil => cases h
    | cons next waiting =>
      cases h
      exact .leave result next waiting depth w
  | act change next =>
    cases h
    exact .act change next waiting depth w
  | close params body env next =>
    cases h
    exact .close params body env next waiting depth w
  | call f args next =>
    cases h
    unfold makeCall
    split
    · exact .refuse f args next waiting depth w _ (Or.inl rfl)
    · split
      · exact .refuse f args next waiting depth w _ (Or.inr rfl)
      · rename_i hRoom
        split
        · exact .enter f args next waiting depth w _ _ (by assumption) (Nat.lt_of_not_le hRoom)
        · exact .refuse f args next waiting depth w _ (Or.inl rfl)

end State

-- ----------------------------------------------------------------------------
-- What is begun comes to its end
-- ----------------------------------------------------------------------------

/-- Whatever rest stands behind it and whatever calls wait, `c` comes to `out`: the machine goes on
with the rest, with the same calls waiting and with its counter where it was. -/
def Returns (host : Host) (limit depth : Nat) (w : World)
    (c : (Except EvalError α → Course Value) → Course Value) (out : Except EvalError α × World) :
    Prop :=
  ∀ rest waiting,
    (State.mk (c rest) waiting depth w).Reaches host limit ⟨rest out.1, waiting, depth, out.2⟩

section Returns

variable {host : Host} {limit depth : Nat}

/-- A course returns if the calls on it do. -/
theorem course_returns_of_calls {call : Caller}
    (hCall : ∀ w f args, Returns host limit depth w (.call f args) ((call f args).runIn w))
    (c : Course α) (w : World) :
    Returns host limit depth w c.andThen ((c.outcome call).runIn w) := by
  intro rest waiting
  induction c generalizing w with
  | done result => exact .refl _
  | act change next ih => exact .step rfl (ih w (change w))
  | close params body env next ih => exact .step rfl (ih _ _)
  | call f args next ih =>
    refine State.Reaches.trans (hCall w f args _ waiting) ?_
    exact ih _ _

theorem andThen_done (c : Course α) : c.andThen .done = c := by
  induction c with
  | done result => rfl
  | act change next ih => exact congrArg (Course.act change) (funext ih)
  | close params body env next ih => exact congrArg (Course.close params body env) (funext ih)
  | call f args next ih => exact congrArg (Course.call f args) (funext ih)

/-- **Every call returns**, with the counter where it was: the body is entered with the counter one
up, and left with the counter one down. -/
theorem calls_return {remaining : Nat} (hRemaining : limit - depth = remaining) (w : World)
    (f : Value) (args : List Value) :
    Returns host limit depth w (.call f args) ((callIn host limit remaining f args).runIn w) := by
  -- The induction is on the calls still allowed, so the counter is one higher in the hypothesis.
  induction remaining generalizing depth w f args with
  | zero =>
    intro rest waiting
    refine .step rfl ?_
    have hFull : limit ≤ depth := by omega
    cases hCallable : f.isCallable <;>
      simp only [State.makeCall, callIn, hCallable, hFull] <;> exact .refl _
  | succ remaining ih =>
    intro rest waiting
    refine .step rfl ?_
    have hRoom : ¬ limit ≤ depth := by omega
    rw [callIn, EvalM.runIn_ofStep]
    simp only [State.makeCall, if_neg hRoom]
    cases hBody : body? host f args w with
    | none =>
      simp only [ite_self]
      exact .refl _
    | some entry =>
      obtain ⟨body, w'⟩ := entry
      have hCallable : f.isCallable = true := by
        cases f <;> first | rfl | cases hBody
      have hCalls : ∀ w f args, Returns host limit (depth + 1) w (.call f args)
          ((callIn host limit remaining f args).runIn w) := ih (by omega)
      have hInner := course_returns_of_calls hCalls body w' .done (rest :: waiting)
      rw [andThen_done] at hInner
      simp only [hCallable, Bool.not_true, Bool.false_eq_true, if_false]
      refine hInner.trans ?_
      exact .step rfl (.refl _)

/-- **Every course returns**, with the counter where it was. -/
theorem course_returns (c : Course α) (w : World) :
    Returns host limit depth w c.andThen
      ((c.outcome (callIn host limit (limit - depth))).runIn w) :=
  course_returns_of_calls (calls_return rfl) c w

end Returns

end Course

end Zaban
