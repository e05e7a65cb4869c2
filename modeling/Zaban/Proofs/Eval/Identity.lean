import Mathlib.Data.List.Nodup
import Zaban.Proofs.Eval.Conveying
import Zaban.Proofs.Eval.Counting
import Zaban.Proofs.Eval.Lockstep
import Zaban.Proofs.Eval.Watched

/-!
# The identity of closures

Closures are compared by their identities alone. That this is right rests on
how identities come about over a whole session, and not on any single step of
it: a number is given out once, and a closure is handed on as it is.

A session is watched here with a list of the closures **made** so far, one for
each time that a function expression was evaluated, in that order. The
invariant is that nothing else is ever at hand: whatever closure is bound in a
frame, called, passed as an argument or given as a result is one of those made.
A host and its native functions are part of this. They may keep the closures
that they were given and hand them back at any time, but they cannot put one
together from its parts, with an identity of their choice. A course that keeps
to this is **honest** (`Course.Honest`); that the closures made become more and
more while a course waits for a call is part of the notion.

* `evaluate_honest` — the course of every expression is honest;
* `Tidy.step`       — an honest state stays so in every step;
* `Reached`         — the states of a session: whatever a host does, one thing
  after another, with every state on the way.

With `conveys_closure`, that copies are the closure itself, this makes up the
main statement: function expressions yield new closures, equal closures are one
and the same, and a copy equals the original.
-/

namespace Zaban

-- ----------------------------------------------------------------------------
-- The closures made so far
-- ----------------------------------------------------------------------------

/-- The value is one of the closures made, if it is a closure. -/
def Value.Among (made : List Closure) (v : Value) : Prop :=
  ∀ c, v = .closure c → c ∈ made

/-- A result with no closures but those made, not even in an error. -/
def AllAmong (made : List Closure) : Except EvalError Value → Prop :=
  Within (Value.Among made) (Value.Among made)

/-- The closures made have the identities given out so far, and the frames hold no other. -/
structure World.Knows (made : List Closure) (w : World) : Prop where
  numbered : made.map Closure.id = List.range w.nextClosure
  bound    : ∀ e f, w.store.frame? e = some f → ∀ x v, (x, v) ∈ f.bindings → v.Among made

section Made

variable {made later : List Closure} {w : World} {v : Value} {c c' : Closure}

theorem Value.Among.mono (h : v.Among made) (hMore : made <+: later) : v.Among later :=
  fun c hc => hMore.subset (h c hc)

theorem Value.among_of_ne_closure (made : List Closure) (v : Value) (h : ∀ c, v ≠ .closure c) :
    v.Among made :=
  fun c hc => absurd hc (h c)

theorem Value.apuz_among (made : List Closure) : Value.apuz.Among made := by
  rintro c ⟨⟩

theorem AllAmong.mono {result : Except EvalError Value} (h : AllAmong made result)
    (hMore : made <+: later) : AllAmong later result := by
  cases result with
  | ok v => exact Value.Among.mono h hMore
  | error e =>
    cases e with
    | typeMismatch op v => exact Value.Among.mono h hMore
    | notCallable v => exact Value.Among.mono h hMore
    | undefinedVariable | invalidTarget | divisionByZero | callDepthExceeded | output => trivial

theorem World.Knows.length_eq (h : w.Knows made) : made.length = w.nextClosure := by
  rw [← List.length_map, h.numbered, List.length_range]

/-- The identity of a closure that was made was given out before. -/
theorem World.Knows.id_lt (h : w.Knows made) (hc : c ∈ made) : c.id < w.nextClosure := by
  rw [← List.mem_range, ← h.numbered]
  exact List.mem_map_of_mem hc

/-- **An identity was given out once.** -/
theorem World.Knows.eq_of_id_eq (h : w.Knows made) (hc : c ∈ made) (hc' : c' ∈ made)
    (hId : c.id = c'.id) : c = c' := by
  have hNodup : (made.map Closure.id).Nodup := by
    rw [h.numbered]
    exact List.nodup_range
  exact List.inj_on_of_nodup_map hNodup hc hc' hId

theorem World.Knows.get? (h : w.Knows made) {e : FrameId} {name : String}
    (hGet : w.store.get? e name = some v) : v.Among made := by
  obtain ⟨b, -, hFound⟩ := Option.bind_eq_some_iff.mp hGet
  obtain ⟨f, hFrame, hValue⟩ := Option.bind_eq_some_iff.mp hFound
  exact h.bound b f hFrame name v (Frame.mem_of_lookup hValue)

theorem World.Knows.define (h : w.Knows made) (hv : v.Among made) (e : FrameId) (name : String) :
    (w.define e name v).Knows made := by
  refine ⟨h.numbered, ?_⟩
  intro d f hFrame x u hu
  change (w.store.define e name v).frame? d = some f at hFrame
  rw [Store.frame?_define] at hFrame
  split at hFrame
  · obtain ⟨g, hOld, rfl⟩ := Option.map_eq_some_iff.mp hFrame
    rcases Frame.mem_bind hu with rfl | hKept
    · exact hv
    · exact h.bound d g hOld x u hKept
  · exact h.bound d f hFrame x u hu

theorem World.Knows.assign (h : w.Knows made) (hv : v.Among made) (e : FrameId) (name : String) :
    (w.assign e name v).2.Knows made ∧ AllAmong made (w.assign e name v).1 := by
  rcases assign_cases w e name v with ⟨t, -, hAssign⟩ | hAssign
  · rw [hAssign]
    exact ⟨h.define hv t name, hv⟩
  · rw [hAssign]
    exact ⟨h, trivial⟩

theorem World.Knows.addFrame (h : w.Knows made) {f : Frame}
    (hf : ∀ x u, (x, u) ∈ f.bindings → u.Among made) : (w.addFrame f).2.Knows made := by
  refine ⟨h.numbered, ?_⟩
  intro d g hFrame x u hu
  change (w.store.add f).frame? d = some g at hFrame
  rw [Store.frame?_add] at hFrame
  split at hFrame
  · obtain rfl := Option.some.inj hFrame
    exact hf x u hu
  · exact h.bound d g hFrame x u hu

/-- A function expression adds its closure to those made. -/
theorem World.Knows.close (h : w.Knows made) (params : List String) (body : Node)
    (env : FrameId) :
    (w.close params body env).2.Knows (made ++ [⟨w.nextClosure, params, body, env⟩]) := by
  refine ⟨?_, ?_⟩
  · rw [List.map_append, h.numbered]
    exact List.range_succ.symm
  · intro e f hFrame x u hu
    exact (h.bound e f hFrame x u hu).mono (List.prefix_append _ _)

theorem World.Knows.of_eq {w' : World} (h : w.Knows made) (hStore : w'.store = w.store)
    (hNext : w'.nextClosure = w.nextClosure) : w'.Knows made :=
  ⟨hNext ▸ h.numbered, hStore ▸ h.bound⟩

end Made

-- ----------------------------------------------------------------------------
-- Honest courses
-- ----------------------------------------------------------------------------

/-- The course has no closures but those made, those that it makes, and those that its calls end
with. Its value has the property, which may depend on the closures made by then. -/
inductive Course.Honest {α : Type} (post : List Closure → α → Prop) :
    List Closure → Course α → Prop where
  | done {made : List Closure} {result : Except EvalError α}
      (hResult : Within (Value.Among made) (post made) result) : Honest post made (.done result)
  | act {made : List Closure} {change : World → World} {next : World → Course α}
      (hWorld : ∀ w, w.Knows made → (change w).Knows made ∧ (change w).natives = w.natives)
      (hNext : ∀ w, w.Knows made → Honest post made (next w)) : Honest post made (.act change next)
  | close {made : List Closure} {params : List String} {body : Node} {env : FrameId}
      {next : Value → Course α}
      (hNext : Honest post (made ++ [⟨made.length, params, body, env⟩])
        (next (.closure ⟨made.length, params, body, env⟩))) :
      Honest post made (.close params body env next)
  | call {made : List Closure} {f : Value} {args : List Value}
      {next : Except EvalError Value → Course α} (hFunction : f.Among made)
      (hArgs : ∀ a ∈ args, a.Among made)
      (hNext : ∀ later result, made <+: later → AllAmong later result →
        Honest post later (next result)) :
      Honest post made (.call f args next)

/-- The native function has no closures but those made by the time it was added, those in its
arguments, and those that its calls end with. -/
def HonestNative (made : List Closure) (body : NativeBody) : Prop :=
  ∀ later args, made <+: later → (∀ a ∈ args, a.Among later) →
    (body args).Handles (Value.Among later)

namespace Course

variable {α β : Type} {made : List Closure} {post : List Closure → α → Prop}
  {post' : List Closure → β → Prop}

theorem Honest.pure {a : α} (h : post made a) : (pure a : Course α).Honest post made :=
  .done h

/-- A step that leaves the closures and the native functions as they are. -/
theorem Honest.ofStep {f : World → Except EvalError α × World}
    (h : ∀ w, w.Knows made → ((f w).2.Knows made ∧ (f w).2.natives = w.natives) ∧
      Within (Value.Among made) (post made) (f w).1) :
    (ofStep f).Honest post made :=
  .act (fun w hw => (h w hw).1) fun w hw => .done (h w hw).2

theorem Honest.andThen {c : Course α} {rest : Except EvalError α → Course β}
    (h : c.Honest post made)
    (hRest : ∀ later result, made <+: later → Within (Value.Among later) (post later) result →
      (rest result).Honest post' later) :
    (c.andThen rest).Honest post' made := by
  induction h with
  | done hResult => exact hRest _ _ (List.prefix_refl _) hResult
  | act hWorld _ ih => exact .act hWorld fun w hw => ih w hw hRest
  | close _ ih =>
    exact .close (ih fun later result hMore hResult =>
      hRest later result ((List.prefix_append _ _).trans hMore) hResult)
  | call hFunction hArgs _ ih =>
    refine .call hFunction hArgs fun later result hMore hResult => ?_
    exact ih later result hMore hResult fun later' result' hMore' hResult' =>
      hRest later' result' (hMore.trans hMore') hResult'

theorem Honest.bind {c : Course α} {f : α → Course β} (h : c.Honest post made)
    (hf : ∀ later a, made <+: later → post later a → (f a).Honest post' later) :
    (c >>= f).Honest post' made := by
  refine h.andThen fun later result hMore hResult => ?_
  cases result with
  | ok a => exact hf later a hMore hResult
  | error e => exact .done hResult

theorem look_honest (env : FrameId) (name : String) :
    (evaluate env (.var name)).Honest Value.Among made := by
  rw [evaluate]
  refine .ofStep fun w hw => ?_
  split
  · rename_i v hGet
    exact ⟨⟨hw, rfl⟩, hw.get? hGet⟩
  · exact ⟨⟨hw, rfl⟩, trivial⟩

theorem natives_assign (w : World) (e : FrameId) (name : String) (v : Value) :
    (w.assign e name v).2.natives = w.natives := by
  rcases assign_cases w e name v with ⟨t, -, hAssign⟩ | hAssign
  · rw [hAssign]
    rfl
  · rw [hAssign]

theorem assign_honest {v : Value} (hv : v.Among made) (env : FrameId) (name : String) :
    (ofStep fun w => w.assign env name v).Honest Value.Among made := by
  refine .ofStep fun w hw => ?_
  obtain ⟨hWorld, hResult⟩ := hw.assign hv env name
  exact ⟨⟨hWorld, natives_assign w env name v⟩, hResult⟩

mutual

/-- **The course of every expression is honest.** -/
theorem evaluate_honest (env : FrameId) (made : List Closure) :
    ∀ n, (evaluate env n).Honest Value.Among made
  | .number x => by
    rw [evaluate]
    exact .pure (by rintro c ⟨⟩)
  | .string s => by
    rw [evaluate]
    exact .pure (by rintro c ⟨⟩)
  | .boolean b => by
    rw [evaluate]
    exact .pure (by rintro c ⟨⟩)
  | .var name => look_honest env name
  | .assignment target value => by
    cases target with
    | var name =>
      rw [evaluate]
      exact (evaluate_honest env made value).bind fun _ v _ hv => assign_honest hv env name
    | program | assignment | binary | condition | lambda | call | number | string | boolean =>
      rw [evaluate]
      · exact .done trivial
      all_goals
        intro name hEq
        cases hEq
  | .binary op left right => by
    rw [evaluate]
    refine (evaluate_honest env made left).bind fun later l _ hl => ?_
    split
    · rename_i v hShort
      exact .pure (shortcut?_within (Value.apuz_among later) hl hShort)
    · refine (evaluate_honest env later right).bind fun later' r hMore hr => ?_
      exact .done (apply_within (Value.among_of_ne_closure later') op (hl.mono hMore) hr)
  | .condition test yes no => by
    rw [evaluate]
    refine (evaluate_honest env made test).bind fun later v _ _ => ?_
    split
    · exact evaluateElse_honest env later no
    · exact evaluate_honest env later yes
  | .program body => by
    rw [evaluate]
    exact evaluateSequence_honest env made (Value.apuz_among made) body
  | .lambda params body => by
    rw [evaluate]
    refine .close (.pure ?_)
    rintro c ⟨⟩
    exact List.mem_append_right _ List.mem_cons_self
  | .call callee args => by
    rw [evaluate]
    refine (evaluate_honest env made callee).bind fun later f _ hf => ?_
    refine (evaluateArgs_honest env later args).bind fun later' vs hMore hvs => ?_
    exact .call (hf.mono hMore) hvs fun later'' result _ hResult => .done hResult

theorem evaluateElse_honest (env : FrameId) (made : List Closure) :
    ∀ no, (evaluateElse env no).Honest Value.Among made
  | none => by
    rw [evaluateElse]
    exact .pure (Value.apuz_among made)
  | some n => by
    rw [evaluateElse]
    exact evaluate_honest env made n

theorem evaluateSequence_honest (env : FrameId) (made : List Closure) {last : Value}
    (hLast : last.Among made) :
    ∀ ns, (evaluateSequence env last ns).Honest Value.Among made
  | [] => by
    rw [evaluateSequence]
    exact .pure hLast
  | n :: ns => by
    rw [evaluateSequence]
    refine (evaluate_honest env made n).bind fun later v _ hv => ?_
    exact evaluateSequence_honest env later hv ns

theorem evaluateArgs_honest (env : FrameId) (made : List Closure) :
    ∀ ns, (evaluateArgs env ns).Honest (fun made vs => ∀ v ∈ vs, v.Among made) made
  | [] => by
    rw [evaluateArgs]
    exact .pure (List.forall_mem_nil _)
  | n :: ns => by
    rw [evaluateArgs]
    refine (evaluate_honest env made n).bind fun later v _ hv => ?_
    refine (evaluateArgs_honest env later ns).bind fun later' vs hMore hvs => ?_
    exact .pure (List.forall_mem_cons.mpr ⟨hv.mono hMore, hvs⟩)

end

theorem write_cases (w : World) (text : String) :
    ∃ sink, w.write text = (.ok (), { w with sink }) ∨
      ∃ reason, w.write text = (.error (.output reason), { w with sink }) := by
  rw [World.write]
  rcases w.sink.write text with ⟨_ | reason, sink⟩
  · exact ⟨sink, Or.inl rfl⟩
  · exact ⟨sink, Or.inr ⟨reason, rfl⟩⟩

/-- A script that is honest whatever will have been made. The induction is on the script, since the
closures made change while it waits for a call. -/
theorem ofScript_honest {s : Script}
    (h : ∀ later, made <+: later → s.Handles (Value.Among later)) :
    (ofScript s).Honest Value.Among made := by
  induction s generalizing made with
  | done result =>
    obtain ⟨hResult⟩ := h made (List.prefix_refl _)
    exact .done hResult
  | call f args next ih =>
    obtain ⟨⟩ | ⟨hFunction, hArgs, -⟩ := h made (List.prefix_refl _)
    refine .call hFunction hArgs fun later result hMore hResult => ih result fun later' hMore' => ?_
    obtain ⟨⟩ | ⟨-, -, hNext⟩ := h later' (hMore.trans hMore')
    exact hNext result (hResult.mono hMore')
  | write text next ih =>
    refine .act (fun w hw => ?_) fun w hw => ?_
    · obtain ⟨sink, hWrite | ⟨reason, hWrite⟩⟩ := write_cases w text <;> rw [hWrite] <;>
        exact ⟨hw.of_eq rfl rfl, rfl⟩
    · obtain ⟨sink, hWrite | ⟨reason, hWrite⟩⟩ := write_cases w text
      · rw [hWrite]
        refine ih fun later hMore => ?_
        obtain ⟨⟩ | ⟨⟩ | ⟨hNext⟩ := h later hMore
        exact hNext
      · rw [hWrite]
        exact .done trivial
  | clock next ih =>
    refine .act (fun w hw => ⟨hw.of_eq rfl rfl, rfl⟩) fun w hw => ih _ fun later hMore => ?_
    obtain ⟨⟩ | ⟨⟩ | ⟨⟩ | ⟨hNext⟩ := h later hMore
    exact hNext _

-- ----------------------------------------------------------------------------
-- Steps
-- ----------------------------------------------------------------------------

/-- The body of a function at hand is honest, and so is the world in which it begins. -/
theorem body?_honest {w w' : World} {f : Value} {args : List Value}
    {body : Course Value} (hWorld : w.Knows made)
    (hNatives : ∀ body ∈ w.natives, HonestNative made body) (hArgs : ∀ a ∈ args, a.Among made)
    (hBody : body? World.scripts f args w = some (body, w')) :
    w'.Knows made ∧ w'.natives = w.natives ∧ body.Honest Value.Among made := by
  cases f with
  | closure c =>
    cases hBody
    refine ⟨hWorld.addFrame ?_, rfl, evaluate_honest _ made c.body⟩
    intro x v hv
    rcases mem_bindParams hv with hArg | rfl | hNone
    · exact hArgs v hArg
    · exact Value.apuz_among made
    · cases hNone
  | native n =>
    obtain ⟨course, hFound, hPair⟩ := Option.map_eq_some_iff.mp hBody
    obtain ⟨native, hNative, rfl⟩ := Option.map_eq_some_iff.mp hFound
    cases hPair
    refine ⟨hWorld, rfl, ofScript_honest fun later hMore => ?_⟩
    exact hNatives native (Array.mem_of_getElem? hNative) later args hMore fun a ha =>
      (hArgs a ha).mono hMore
  | number | string | boolean => cases hBody

namespace State

variable {m m' : State} {limit : Nat}

/-- The closure that the next step makes, if it makes one. -/
def yields (m : State) : List Closure :=
  match m.course with
  | .close params body env _ => [⟨m.world.nextClosure, params, body, env⟩]
  | _ => []

/-- Whatever can come to light in the state, now or later, is honest. -/
structure Tidy (made : List Closure) (m : State) : Prop where
  world   : m.world.Knows made
  natives : ∀ body ∈ m.world.natives, HonestNative made body
  course  : m.course.Honest Value.Among made
  waiting : ∀ next ∈ m.waiting, ∀ later result, made <+: later → AllAmong later result →
    (next result).Honest Value.Among later

theorem Tidy.step (h : m.Tidy made) (hStep : m.step World.scripts limit = some m') :
    m'.Tidy (made ++ m.yields) := by
  obtain ⟨hWorld, hNatives, hCourse, hWaiting⟩ := h
  cases Step.of_step hStep with
  | act change next waiting depth w =>
    obtain ⟨⟩ | ⟨hChange, hNext⟩ := hCourse
    rw [yields, List.append_nil]
    exact ⟨(hChange w hWorld).1, (hChange w hWorld).2 ▸ hNatives, hNext w hWorld, hWaiting⟩
  | close params body env next waiting depth w =>
    obtain ⟨⟩ | ⟨⟩ | ⟨hNext⟩ := hCourse
    rw [hWorld.length_eq] at hNext
    have hMore : made <+: made ++ [⟨w.nextClosure, params, body, env⟩] := List.prefix_append _ _
    exact ⟨hWorld.close params body env,
      fun native hNative later args hLater => hNatives native hNative later args
        (hMore.trans hLater),
      hNext, fun rest hRest later result hLater => hWaiting rest hRest later result
        (hMore.trans hLater)⟩
  | refuse f args next waiting depth w e hError =>
    obtain ⟨⟩ | ⟨⟩ | ⟨⟩ | ⟨hFunction, hArgs, hNext⟩ := hCourse
    rw [yields, List.append_nil]
    refine ⟨hWorld, hNatives, hNext made _ (List.prefix_refl _) ?_, hWaiting⟩
    rcases hError with rfl | rfl
    · exact hFunction
    · trivial
  | enter f args next waiting depth w body w' hBody hRoom =>
    obtain ⟨⟩ | ⟨⟩ | ⟨⟩ | ⟨hFunction, hArgs, hNext⟩ := hCourse
    rw [yields, List.append_nil]
    obtain ⟨hWorld', hSame, hHonest⟩ := body?_honest hWorld hNatives hArgs hBody
    exact ⟨hWorld', hSame ▸ hNatives, hHonest, List.forall_mem_cons.mpr ⟨hNext, hWaiting⟩⟩
  | leave result next waiting depth w =>
    obtain ⟨hResult⟩ := hCourse
    rw [yields, List.append_nil]
    obtain ⟨hNext, hOthers⟩ := List.forall_mem_cons.mp hWaiting
    exact ⟨hWorld, hNatives, hNext made result (List.prefix_refl _) hResult, hOthers⟩

end State

-- ----------------------------------------------------------------------------
-- Sessions
-- ----------------------------------------------------------------------------

/-- The run has come to its end. -/
def State.Ended (m : State) : Prop :=
  m.waiting = [] ∧ ∃ result, m.course = .done result

end Course

/-- The host hands in only closures that were made. -/
def Operation.Fair (made : List Closure) : Operation → Prop
  | .root | .enclose _ | .evaluate _ _ _ => True
  | .define _ _ value | .set _ _ value => value.Among made
  | .install _ _ body => HonestNative made body
  | .call _ f args => f.Among made ∧ ∀ a ∈ args, a.Among made

/-- The course of an operation that the evaluator is needed for. -/
def Operation.course? : Operation → Option (Course Value)
  | .evaluate _ env program => some (.evaluate env program)
  | .call _ f args => some (.call f args .done)
  | _ => none

namespace Course

/-- The states of a session, each with the closures made in it so far: from a world without frames
on, a host does one thing after another, and the machine is seen at every step of a run. -/
inductive Reached : List Closure → State → Prop where
  | start (sink : Sink) (clock : Nat → Nat) :
      Reached [] ⟨.done (.ok .apuz), [], 0, .empty sink clock⟩
  | hosted {made : List Closure} {m : State} (h : Reached made m) (hEnded : m.Ended)
      (op : Operation) (hFair : op.Fair made) (hHost : op.course? = none) :
      Reached made { m with world := m.world.perform op }
  | begun {made : List Closure} {m : State} (h : Reached made m) (hEnded : m.Ended)
      (op : Operation) (hFair : op.Fair made) {run : Course Value}
      (hRun : op.course? = some run) : Reached made ⟨run, [], 0, m.world⟩
  | stepped {made : List Closure} {m m' : State} (h : Reached made m) (limit : Nat)
      (hStep : m.step World.scripts limit = some m') : Reached (made ++ m.yields) m'

section Sessions

variable {made : List Closure} {m m' : State}

theorem perform_knows {w : World} {op : Operation} (hWorld : w.Knows made)
    (hNatives : ∀ body ∈ w.natives, HonestNative made body) (hFair : op.Fair made)
    (hHost : op.course? = none) :
    (w.perform op).Knows made ∧ ∀ body ∈ (w.perform op).natives, HonestNative made body := by
  cases op with
  | root | enclose =>
    exact ⟨hWorld.addFrame fun x v hv => absurd hv List.not_mem_nil, hNatives⟩
  | define frame name value => exact ⟨hWorld.define hFair frame name, hNatives⟩
  | set frame name value =>
    refine ⟨(hWorld.assign hFair frame name).1, ?_⟩
    rw [World.perform, natives_assign]
    exact hNatives
  | install frame name body =>
    have hAdded : (w.addNative name body).2.Knows made := hWorld.of_eq rfl rfl
    refine ⟨hAdded.define (by rintro c ⟨⟩) frame name, ?_⟩
    intro other hOther
    rcases Array.mem_push.mp hOther with hOld | rfl
    · exact hNatives other hOld
    · exact hFair
  | evaluate | call => cases hHost

theorem course?_honest {op : Operation} (hFair : op.Fair made) {run : Course Value}
    (hRun : op.course? = some run) : run.Honest Value.Among made := by
  cases op with
  | evaluate config env program =>
    cases hRun
    exact evaluate_honest env made program
  | call config f args =>
    cases hRun
    exact .call hFair.1 hFair.2 fun later result _ hResult => .done hResult
  | root | enclose | define | install | set => cases hRun

/-- **In every state of a session all is honest.** -/
theorem Reached.tidy (h : Reached made m) : m.Tidy made := by
  induction h with
  | start sink clock =>
    refine ⟨⟨rfl, ?_⟩, ?_, .done (Value.apuz_among []), List.forall_mem_nil _⟩
    · intro e f hFrame
      cases hFrame
    · intro body hBody
      exact absurd hBody (Array.not_mem_empty body)
  | hosted _ _ op hFair hHost ih =>
    obtain ⟨hWorld, hNatives⟩ := perform_knows ih.world ih.natives hFair hHost
    exact ⟨hWorld, hNatives, ih.course, ih.waiting⟩
  | begun _ _ op hFair hRun ih =>
    exact ⟨ih.world, ih.natives, course?_honest hFair hRun, List.forall_mem_nil _⟩
  | stepped _ limit hStep ih => exact ih.step hStep

theorem Reached.reaches (h : Reached made m) {limit : Nat}
    (hReaches : m.Reaches World.scripts limit m') :
    ∃ later, made <+: later ∧ Reached later m' := by
  induction hReaches with
  | refl => exact ⟨made, List.prefix_refl _, h⟩
  | tail _ hStep ih =>
    obtain ⟨later, hMore, hReached⟩ := ih
    exact ⟨_, hMore.trans (List.prefix_append _ _), hReached.stepped limit hStep⟩

/-- What the evaluator does at once for a host, the session does step by step. -/
theorem Reached.perform (h : Reached made m) (hEnded : m.Ended) {op : Operation}
    (hFair : op.Fair made) :
    ∃ later m', made <+: later ∧ Reached later m' ∧ m'.Ended ∧
      m'.world = m.world.perform op := by
  have hRun : ∀ (run : Course Value) (limit : Nat), op.course? = some run →
      ((run.outcome (callIn World.scripts limit (limit - 0))).runIn m.world).2 =
        m.world.perform op →
      ∃ later m', made <+: later ∧ Reached later m' ∧ m'.Ended ∧
        m'.world = m.world.perform op := by
    intro run limit hCourse hOut
    obtain ⟨later, hMore, hReached⟩ := (h.begun hEnded op hFair hCourse).reaches
      (run_iff.mpr ⟨rfl, rfl⟩ : State.Reaches World.scripts limit _ _)
    exact ⟨later, _, hMore, hReached, ⟨rfl, _, rfl⟩, hOut⟩
  cases op with
  | evaluate config env program =>
    refine hRun _ config.maxCallDepth rfl ?_
    rw [outcome_evaluate, callIn_scripts]
    rfl
  | call config f args =>
    refine hRun _ config.maxCallDepth rfl ?_
    rw [callIn_scripts]
    rfl
  | root | enclose | define | install | set =>
    exact ⟨made, _, List.prefix_refl _, h.hosted hEnded _ hFair rfl, hEnded, rfl⟩

end Sessions

-- ----------------------------------------------------------------------------
-- Where closures are
-- ----------------------------------------------------------------------------

/-- The closure is in the state for all to see. -/
inductive State.Shows (m : State) (c : Closure) : Prop where
  /-- It is bound in a frame. -/
  | bound (e : FrameId) (f : Frame) (x : String) (hFrame : m.world.store.frame? e = some f)
      (hBound : (x, .closure c) ∈ f.bindings)
  /-- It is called. -/
  | called (args : List Value) (next : Except EvalError Value → Course Value)
      (hCall : m.course = .call (.closure c) args next)
  /-- It is an argument of a call. -/
  | passed (f : Value) (args : List Value) (next : Except EvalError Value → Course Value)
      (hCall : m.course = .call f args next) (hArg : .closure c ∈ args)
  /-- It is the result of a call or of a run. -/
  | given (hDone : m.course = .done (.ok (.closure c)))
  /-- It is the operand that an operator refused. -/
  | blamed (op : BinaryOp) (hDone : m.course = .done (.error (.typeMismatch op (.closure c))))

theorem State.Tidy.mem_of_shows {made : List Closure} {m : State} {c : Closure} (h : m.Tidy made)
    (hShows : m.Shows c) : c ∈ made := by
  obtain ⟨hWorld, -, hCourse, -⟩ := h
  cases hShows with
  | bound e f x hFrame hBound => exact hWorld.bound e f hFrame x _ hBound c rfl
  | called args next hCall =>
    rw [hCall] at hCourse
    obtain ⟨⟩ | ⟨⟩ | ⟨⟩ | ⟨hFunction, -, -⟩ := hCourse
    exact hFunction c rfl
  | passed f args next hCall hArg =>
    rw [hCall] at hCourse
    obtain ⟨⟩ | ⟨⟩ | ⟨⟩ | ⟨-, hArgs, -⟩ := hCourse
    exact hArgs _ hArg c rfl
  | given hDone =>
    rw [hDone] at hCourse
    obtain ⟨hResult⟩ := hCourse
    exact hResult c rfl
  | blamed op hDone =>
    rw [hDone] at hCourse
    obtain ⟨hResult⟩ := hCourse
    exact hResult c rfl

/--
**Closures are told apart and recognised by their identities.** In every state
of a session, with the closures made so far in it:

* every closure in sight is one of them;
* a function expression yields a closure that equals none of them, so none that
  is in a frame, in an argument list or in a result, already or still to come;
* two of them that are equal are one, with one parameter list, body and frame,
  so a call of the one ends as a call of the other would, in every world;
* what copies one of them gives the closure itself, which equals itself.

What the evaluator does for a host between two runs, and in a run as a whole,
leads from one state of the session to another.
-/
theorem closures_have_identity {made : List Closure} {m : State} (h : Reached made m) :
    (∀ c, m.Shows c → c ∈ made) ∧
    (∀ limit params body env next, m.course = .close params body env next →
      ∃ c m', m.step World.scripts limit = some m' ∧ Reached (made ++ [c]) m' ∧
        m'.course = next (.closure c) ∧ c.params = params ∧ c.body = body ∧ c.env = env ∧
        ∀ old ∈ made, (Value.closure c).equals (.closure old) = false) ∧
    (∀ c ∈ made, ∀ c' ∈ made, (Value.closure c).equals (.closure c') = true →
      c.params = c'.params ∧ c.body = c'.body ∧ c.env = c'.env ∧
      ∀ limit remaining args w, (callWithin limit remaining (.closure c) args).runIn w =
        (callWithin limit remaining (.closure c') args).runIn w) ∧
    (∀ limit remaining, ∀ c ∈ made, Conveys limit remaining c) ∧
    (∀ op : Operation, m.Ended → op.Fair made →
      ∃ later m', made <+: later ∧ Reached later m' ∧ m'.Ended ∧
        m'.world = m.world.perform op) := by
  have hTidy := h.tidy
  refine ⟨fun c hShows => hTidy.mem_of_shows hShows, ?_, ?_, ?_, ?_⟩
  · intro limit params body env next hCourse
    obtain ⟨course, waiting, depth, w⟩ := m
    obtain rfl : course = .close params body env next := hCourse
    refine ⟨⟨w.nextClosure, params, body, env⟩, _, rfl, h.stepped limit rfl, rfl, rfl, rfl, rfl, ?_⟩
    intro old hOld
    have hLess : old.id < w.nextClosure := hTidy.world.id_lt hOld
    exact beq_false_of_ne (Nat.ne_of_gt hLess)
  · intro c hc c' hc' hEqual
    obtain rfl : c = c' := hTidy.world.eq_of_id_eq hc hc' (eq_of_beq hEqual)
    exact ⟨rfl, rfl, rfl, fun _ _ _ _ => rfl⟩
  · intro limit remaining c _
    exact conveys_closure limit remaining c
  · intro op hEnded hFair
    exact h.perform hEnded hFair

theorem time_honest (made : List Closure) : HonestNative made Script.time := by
  intro later args _ hArgs
  have hFirst : (Script.firstArg args).Among later := by
    cases args with
    | nil => exact Value.apuz_among later
    | cons a as => exact hArgs a List.mem_cons_self
  refine .clock fun started => .call hFirst (List.forall_mem_nil _) fun result hResult => ?_
  exact .clock fun ended => .write (.done hResult)

/-- Binds two names to functions that look alike. -/
def lookalikes : Node :=
  .program [.assignment (.var "f") (.lambda [] (.boolean true)),
    .assignment (.var "g") (.lambda [] (.boolean true))]

/-- The session in which `lookalikes` is evaluated in a root with `time`, where the second function
is about to be evaluated: it differs from the first. -/
theorem closures_have_identity_lookalikes :
    ∃ m : State, Reached [⟨0, [], .boolean true, 0⟩] m ∧ m.Shows ⟨0, [], .boolean true, 0⟩ ∧
      ∃ c m', m.step World.scripts 10 = some m' ∧ c.params = [] ∧ c.body = .boolean true ∧
        c.env = 0 ∧ Reached [⟨0, [], .boolean true, 0⟩, c] m' ∧
        (Value.closure c).equals (.closure ⟨0, [], .boolean true, 0⟩) = false := by
  have hRoot := (Reached.start (.ofQuota none) fun _ => 0).hosted ⟨rfl, _, rfl⟩ .root trivial rfl
  have hHost := hRoot.hosted ⟨rfl, _, rfl⟩ (.install 0 "time" Script.time) (time_honest []) rfl
  have hRun := hHost.begun ⟨rfl, _, rfl⟩ (.evaluate ⟨10⟩ 0 lookalikes) trivial rfl
  have hBound := (hRun.stepped 10 rfl).stepped 10 rfl
  obtain ⟨-, hFresh, -⟩ := closures_have_identity hBound
  obtain ⟨c, m', hStep, hReached, -, hParams, hBody, hEnv, hOld⟩ := hFresh 10 _ _ _ _ rfl
  refine ⟨_, hBound, .bound 0 _ "f" rfl ?_, c, m', hStep, hParams, hBody, hEnv, hReached,
    hOld _ List.mem_cons_self⟩
  exact List.mem_cons_of_mem _ List.mem_cons_self

end Course

end Zaban
