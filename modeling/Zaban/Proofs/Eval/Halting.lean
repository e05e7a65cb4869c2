import Mathlib
import Zaban.Proofs.Eval.CallDepth
import Zaban.Proofs.Eval.Descent
import Zaban.Proofs.Eval.Sessions

/-!
# Every evaluation ends

A call jumps to the body of whatever closure it finds in the frames. That body
may be larger than the expression that makes the call, and may call itself
again. What is under way descends nevertheless, in the calls still allowed and
the size. And the walk outward from a frame ends, since frames hang from older
ones.

So the machine comes to an end from every expression and every call, with any
number of calls under way, in every well-formed world. It ends with what the
evaluator gives, with nothing waiting, and with as many calls under way as at
the start (`every_evaluation_ends`). The argument is the recursion of the
evaluator itself: `eval_comes` goes by the expression, if calls come to an end,
and `call_comes` by the calls still allowed.
-/

namespace Zaban.Stepwise

-- ----------------------------------------------------------------------------
-- Coming to an end
-- ----------------------------------------------------------------------------

/-- The machine comes to hand `out` on, whatever waits for it, and as many calls are under way then
as before. -/
def Comes (limit depth : Nat) (w : World) (control : Control)
    (out : Except EvalError Value × World) : Prop :=
  ∀ stack, (⟨control, stack, depth, w⟩ : State).Reaches limit ⟨.give out.1, stack, depth, out.2⟩

/-- The evaluation of `n` comes to hand `out` on when its part has the value `v`. -/
def Proceeds (limit depth : Nat) (w : World) (n : Node) (rest : Rest) (v : Value)
    (out : Except EvalError Value × World) : Prop :=
  ∀ stack, (⟨.give (.ok v), .within n rest :: stack, depth, w⟩ : State).Reaches limit
    ⟨.give out.1, stack, depth, out.2⟩

section Rules

variable {limit depth : Nat} {w : World} {n : Node} {rest : Rest}

theorem comes_give (r : Except EvalError Value) : Comes limit depth w (.give r) (r, w) :=
  fun _ => .refl _

/-- One step that leaves the stack as it is. -/
theorem Comes.step {control control' : Control} {w' : World} {out : Except EvalError Value × World}
    (hStep : ∀ stack, (⟨control, stack, depth, w⟩ : State).step limit =
      some ⟨control', stack, depth, w'⟩)
    (h : Comes limit depth w' control' out) : Comes limit depth w control out :=
  fun stack => .step (hStep stack) (h stack)

/-- The evaluation of `n` waits for a part, and goes on with its value; an error it hands on. -/
theorem Comes.within {control : Control} {x : EvalM Value} {f : Value → EvalM Value}
    (hx : Comes limit depth w control (x.runIn w))
    (hf : ∀ v w', x.runIn w = (.ok v, w') → Proceeds limit depth w' n rest v ((f v).runIn w'))
    (stack : List Pending) :
    (⟨control, .within n rest :: stack, depth, w⟩ : State).Reaches limit
      ⟨.give ((x >>= f).runIn w).1, stack, depth, ((x >>= f).runIn w).2⟩ := by
  refine (hx _).trans ?_
  rw [EvalM.runIn_bind]
  rcases hRun : x.runIn w with ⟨r, w'⟩
  cases r with
  | ok v => exact hf v w' hRun stack
  | error e => exact .step rfl (.refl _)

theorem Proceeds.step {v : Value} {control : Control} {out : Except EvalError Value × World}
    (hStep : ∀ m : State, m.proceed n v rest = m.goOn control)
    (h : Comes limit depth w control out) : Proceeds limit depth w n rest v out := by
  intro stack
  refine .step rfl ?_
  show State.Reaches limit (State.proceed _ n v rest) _
  rw [hStep]
  exact h stack

/-- The value of the last part is that of the whole expression. -/
theorem proceeds_hand (v : Value) : Proceeds limit depth w n .hand v (.ok v, w) :=
  .step (fun _ => rfl) (comes_give _)

end Rules

-- ----------------------------------------------------------------------------
-- Names
-- ----------------------------------------------------------------------------

section Names

variable {limit depth : Nat} {w : World}

/-- **A walk outward ends**, where frames hang from older ones, and finds what a search finds. -/
theorem search_comes (hOlder : ∀ e o, w.store.outer? e = some o → o < e) (errand : Errand)
    (name : String) (e : FrameId) :
    Comes limit depth w (.search errand name (some e))
      (settle w name (w.store.binder? e name) errand) := by
  -- behind the last frame there is nothing to find
  have hBehind : Comes limit depth w (.search errand name none) (settle w name none errand) :=
    .step (fun _ => rfl) (comes_give _)
  induction e using Nat.strongRecOn with
  | ind e ih =>
    rw [Store.binder?, Store.binderFrom]
    cases hFrame : w.store.frame? e with
    | none =>
      refine Comes.step (fun stack => ?_) hBehind
      simp only [State.step, State.look, hFrame]
      rfl
    | some f =>
      by_cases hBinds : f.binds name = true
      · simp only [hBinds, if_true]
        refine Comes.step (fun stack => ?_) (comes_give _)
        simp only [State.step, State.look, hFrame, hBinds, if_true]
        rfl
      · have hStep : ∀ stack, (⟨.search errand name (some e), stack, depth, w⟩ : State).step limit =
            some ⟨.search errand name f.outer, stack, depth, w⟩ := by
          intro stack
          simp only [State.step, State.look, hFrame, if_neg hBinds]
          rfl
        simp only [if_neg hBinds]
        cases hOuter : f.outer with
        | none =>
          rw [hOuter] at hStep
          exact .step hStep hBehind
        | some o =>
          rw [hOuter] at hStep
          have ho : o < e := hOlder e o ((outer?_eq hFrame).trans hOuter)
          simp only [binderFrom_eq hOlder name ho (Nat.lt_succ_self o)]
          exact .step hStep (ih o ho)

theorem look_comes (hOlder : ∀ e o, w.store.outer? e = some o → o < e) (call : Caller)
    (env : FrameId) (name : String) :
    Comes limit depth w (.eval env (.var name)) ((evalNode call env (.var name)).runIn w) := by
  rw [evalNode]
  exact .step (fun _ => rfl) (search_comes hOlder .read name env)

end Names

-- ----------------------------------------------------------------------------
-- Expressions
-- ----------------------------------------------------------------------------

/-- What holds of a run stays true of the world behind it. -/
theorem keeps_of_recounts {w w' : World} {places : FrameId → Prop} {α : Type}
    {post : Store → α → Prop} {x : EvalM α} {y : WatchM α} {r : Except EvalError α}
    (h : Recounts places ⟨w, []⟩ post x y) (hRun : x.runIn w = (r, w')) :
    w'.Formed ∧ w.store.next ≤ w'.store.next ∧ ∀ a, r = .ok a → post w'.store a := by
  obtain ⟨r', m', new, -, hWorld, hFormed, hLeads, hPost⟩ := h
  obtain ⟨rfl, rfl⟩ := Prod.mk.inj (hRun.symm.trans hWorld)
  exact ⟨hFormed.world, hLeads.store.next, hPost⟩

theorem watch_formed {w : World} (h : w.Formed) : Watch.Formed ⟨w, []⟩ :=
  ⟨h, List.forall_mem_nil _, .nil, List.forall_mem_nil _⟩

/-- Evaluation keeps a world well formed, and its value is a live one. -/
theorem evalNode_keeps {w w' : World} (h : w.Formed) {env : FrameId} (hEnv : env < w.store.next)
    {limit remaining : Nat} {n : Node} {r : Except EvalError Value}
    (hRun : (evalNode (callWithin limit remaining) env n).runIn w = (r, w')) :
    w'.Formed ∧ w.store.next ≤ w'.store.next ∧ ∀ v, r = .ok v → v.Live w'.store :=
  keeps_of_recounts (evalNode_recounts (callWithin_recounts limit remaining) (watch_formed h) hEnv)
    hRun

/-- With `depth` calls under way, every call comes to hand on what `callWithin` gives. -/
def CallsCome (limit depth remaining : Nat) : Prop :=
  ∀ w f args, World.Formed w → f.Live w.store → (∀ a ∈ args, a.Live w.store) →
    Comes limit depth w (.call f args) ((callWithin limit remaining f args).runIn w)

section Expressions

variable {limit depth remaining : Nat} {env : FrameId}

mutual

/-- **Every expression comes to an end**, if calls do. -/
theorem eval_comes (hCall : CallsCome limit depth remaining) :
    ∀ (n : Node) {w : World}, w.Formed → env < w.store.next →
      Comes limit depth w (.eval env n) ((evalNode (callWithin limit remaining) env n).runIn w)
  | .number x, w, h, hEnv => by
    rw [evalNode]
    exact .step (fun _ => rfl) (comes_give _)
  | .string s, w, h, hEnv => by
    rw [evalNode]
    exact .step (fun _ => rfl) (comes_give _)
  | .boolean b, w, h, hEnv => by
    rw [evalNode]
    exact .step (fun _ => rfl) (comes_give _)
  | .var name, w, h, hEnv => look_comes h.older _ env name
  | .assignment target value, w, h, hEnv => by
    cases target with
    | var name =>
      intro stack
      rw [evalNode]
      refine .step rfl ((eval_comes hCall value h hEnv).within (fun v w' hRun => ?_) stack)
      obtain ⟨h', -, -⟩ := evalNode_keeps h hEnv hRun
      exact .step (fun _ => rfl) (search_comes h'.older (.assign env v) name env)
    | program | assignment | binary | condition | lambda | call | number | string | boolean =>
      rw [evalNode]
      · exact .step (fun _ => rfl) (comes_give _)
      · intro name hEq
        cases hEq
  | .binary op left right, w, h, hEnv => by
    intro stack
    rw [evalNode]
    refine .step rfl ((eval_comes hCall left h hEnv).within (fun l w₁ hLeft => ?_) stack)
    obtain ⟨h₁, hNext, -⟩ := evalNode_keeps h hEnv hLeft
    cases hShort : op.shortcut? l with
    | some v =>
      refine .step (fun m => ?_) (comes_give _)
      simp only [State.proceed, hShort]
    | none =>
      intro stack
      have hRight := eval_comes hCall right h₁ (Nat.lt_of_lt_of_le hEnv hNext)
      refine .step rfl ?_
      simp only [State.resume, State.proceed, hShort]
      refine hRight.within (fun r w₂ _ => ?_) stack
      exact .step (fun _ => rfl) (comes_give _)
  | .condition test yes no, w, h, hEnv => by
    intro stack
    rw [evalNode]
    refine .step rfl ((eval_comes hCall test h hEnv).within (fun v w₁ hTest => ?_) stack)
    obtain ⟨h₁, hNext, -⟩ := evalNode_keeps h hEnv hTest
    have hEnv₁ := Nat.lt_of_lt_of_le hEnv hNext
    intro stack
    refine .step rfl ?_
    simp only [State.resume, State.proceed]
    split
    · exact else_comes hCall (.condition test yes no) no h₁ hEnv₁ _ stack
    · have hYes := (eval_comes hCall yes h₁ hEnv₁).within (f := pure)
        (fun v w₂ _ => proceeds_hand (n := .condition test yes no) v) stack
      rw [bind_pure] at hYes
      exact hYes
  | .program body, w, h, hEnv => by
    intro stack
    rw [evalNode]
    exact .step rfl (sequence_comes hCall (.program body) body .apuz h hEnv _ stack)
  | .lambda params body, w, h, hEnv => by
    rw [evalNode]
    exact .step (fun _ => rfl) (comes_give _)
  | .call callee args, w, h, hEnv => by
    intro stack
    rw [evalNode]
    refine .step rfl ((eval_comes hCall callee h hEnv).within (fun f w₁ hCallee => ?_) stack)
    obtain ⟨h₁, hNext, hLive⟩ := evalNode_keeps h hEnv hCallee
    intro stack
    exact .step rfl (args_come hCall (.call callee args) args h₁ (Nat.lt_of_lt_of_le hEnv hNext)
      (hLive f rfl) (List.forall_mem_nil _) _ stack)

/-- The branch that may be absent, when the test of `n` is false. -/
theorem else_comes (hCall : CallsCome limit depth remaining) (n : Node) :
    ∀ (no : Option Node) {w : World}, w.Formed → env < w.store.next → ∀ control stack,
      State.Reaches limit ((⟨control, stack, depth, w⟩ : State).branch n env no)
        ⟨.give ((evalElse (callWithin limit remaining) env no).runIn w).1, stack, depth,
          ((evalElse (callWithin limit remaining) env no).runIn w).2⟩
  | none, w, h, hEnv, _, stack => by
    rw [evalElse]
    exact .refl _
  | some no, w, h, hEnv, _, stack => by
    have hNo := (eval_comes hCall no h hEnv).within (f := pure)
      (fun v w₂ _ => proceeds_hand (n := n) v) stack
    rw [bind_pure] at hNo
    rw [evalElse]
    exact hNo

/-- What is left of a sequence. -/
theorem sequence_comes (hCall : CallsCome limit depth remaining) (n : Node) :
    ∀ (ns : List Node) (last : Value) {w : World}, w.Formed → env < w.store.next →
      ∀ control stack,
        State.Reaches limit ((⟨control, stack, depth, w⟩ : State).follow n env last ns)
        ⟨.give ((evalSequence (callWithin limit remaining) env last ns).runIn w).1, stack, depth,
          ((evalSequence (callWithin limit remaining) env last ns).runIn w).2⟩
  | [], last, w, h, hEnv, _, stack => by
    rw [evalSequence]
    exact .refl _
  | x :: xs, last, w, h, hEnv, _, stack => by
    rw [evalSequence]
    refine (eval_comes hCall x h hEnv).within (fun v w₁ hRun => ?_) stack
    obtain ⟨h₁, hNext, -⟩ := evalNode_keeps h hEnv hRun
    intro stack
    exact .step rfl (sequence_comes hCall n xs v h₁ (Nat.lt_of_lt_of_le hEnv hNext) _ stack)

/-- What is left of the arguments of a call, and the call itself. -/
theorem args_come (hCall : CallsCome limit depth remaining) (n : Node) :
    ∀ (ns : List Node) {f : Value} {vs : List Value} {w : World}, w.Formed → env < w.store.next →
      f.Live w.store → (∀ v ∈ vs, v.Live w.store) → ∀ control stack,
      State.Reaches limit ((⟨control, stack, depth, w⟩ : State).gather n env f vs ns)
        ⟨.give ((evalArgs (callWithin limit remaining) env ns >>= fun us =>
            callWithin limit remaining f (vs ++ us)).runIn w).1, stack, depth,
          ((evalArgs (callWithin limit remaining) env ns >>= fun us =>
            callWithin limit remaining f (vs ++ us)).runIn w).2⟩
  | [], f, vs, w, h, hEnv, hf, hvs, _, stack => by
    have hDone := (hCall w f vs h hf hvs).within (f := pure)
      (fun v w₁ _ => proceeds_hand (n := n) v) stack
    rw [bind_pure] at hDone
    rw [evalArgs, pure_bind, List.append_nil]
    exact hDone
  | x :: xs, f, vs, w, h, hEnv, hf, hvs, _, stack => by
    simp only [evalArgs, bind_assoc, pure_bind]
    refine (eval_comes hCall x h hEnv).within (fun v w₁ hRun => ?_) stack
    obtain ⟨h₁, hNext, hLive⟩ := evalNode_keeps h hEnv hRun
    intro stack
    refine .step rfl ?_
    have hvs₁ : ∀ u ∈ vs ++ [v], u.Live w₁.store := by
      intro u hu
      rcases List.mem_append.mp hu with hOld | hNew
      · exact (hvs u hOld).mono hNext
      · exact List.mem_singleton.mp hNew ▸ hLive v rfl
    have hRest := args_come hCall n xs h₁ (Nat.lt_of_lt_of_le hEnv hNext) (hf.mono hNext) hvs₁
      (.give (.ok v)) stack
    simp only [List.append_assoc, List.singleton_append] at hRest
    exact hRest

end

end Expressions

-- ----------------------------------------------------------------------------
-- Calls
-- ----------------------------------------------------------------------------

section Calls

variable {limit depth remaining : Nat} {call : Caller}

theorem done_comes (w : World) (r : Except EvalError Value) :
    Comes limit depth w (.script (.done r)) ((runScript call (.done r)).runIn w) := by
  rw [runScript]
  exact .step (fun _ => rfl) (comes_give _)

/-- A refused write ends a script. -/
theorem write_comes (w : World) (text : String) {next : Script}
    (h : ∀ w, Comes limit depth w (.script next) ((runScript call next).runIn w)) :
    Comes limit depth w (.script (.write text next))
      ((runScript call (.write text next)).runIn w) := by
  rw [runScript, EvalM.runIn_bind, EvalM.runIn_ofStep]
  rcases hWrite : w.write text with ⟨r, w'⟩
  cases r with
  | ok u =>
    refine .step (fun stack => ?_) (h w')
    simp only [State.step, State.perform, hWrite]
  | error e =>
    refine .step (fun stack => ?_) (comes_give _)
    simp only [State.step, State.perform, hWrite]
    rfl

theorem clock_comes (w : World) {next : Nat → Script}
    (h : Comes limit depth w.readClock.2 (.script (next w.readClock.1))
      ((runScript call (next w.readClock.1)).runIn w.readClock.2)) :
    Comes limit depth w (.script (.clock next)) ((runScript call (.clock next)).runIn w) := by
  rw [runScript, EvalM.runIn_bind, EvalM.runIn_ofStep]
  exact .step (fun _ => rfl) h

theorem wan_comes (w : World) (args : List Value) :
    Comes limit depth w (.script (Script.wan args)) ((runScript call (Script.wan args)).runIn w) :=
  write_comes w _ fun w => done_comes w _

theorem report_comes (w : World) (started : Nat) (r : Except EvalError Value) :
    Comes limit depth w (.script (Script.report started r))
      ((runScript call (Script.report started r)).runIn w) :=
  clock_comes w (write_comes _ _ fun w => done_comes w r)

/-- `time` takes the result of its call up, be it a value or an error. -/
theorem time_comes (hCall : CallsCome limit depth remaining) {w : World} (h : w.Formed)
    {args : List Value} (hArgs : ∀ a ∈ args, a.Live w.store) :
    Comes limit depth w (.script (Script.time args))
      ((runScript (callWithin limit remaining) (Script.time args)).runIn w) := by
  have hFirst : (Script.firstArg args).Live w.store := by
    cases args with
    | nil => exact live_apuz
    | cons a as => exact hArgs a List.mem_cons_self
  rw [time_eq]
  refine clock_comes w ?_
  intro stack
  have hTicked : w.readClock.2.Formed := ⟨h.older, h.live, h.natives⟩
  rw [runScript, EvalM.runIn_ofStep]
  refine .step rfl ((hCall _ _ [] hTicked hFirst (List.forall_mem_nil _) _).trans ?_)
  exact .step rfl (report_comes _ _ _ stack)

/-- The body of a closure, and the step that leaves the call. -/
theorem closure_comes (hCall : CallsCome limit (depth + 1) remaining) (hDepth : depth < limit)
    {w : World} (h : w.Formed) {c : Closure} (hc : (Value.closure c).Live w.store)
    {args : List Value} (hArgs : ∀ a ∈ args, a.Live w.store) :
    Comes limit depth w (.call (.closure c) args)
      ((callWithin limit (remaining + 1) (.closure c) args).runIn w) := by
  intro stack
  have hEnter : (enterClosure c args).runIn w =
      (.ok w.store.next, (w.addFrame ⟨bindParams [] c.params args, some c.env⟩).2) := rfl
  obtain ⟨hFormed, -, hScope⟩ := keeps_of_recounts
    (enter_recounts (watch_formed h) (hc c rfl) hArgs) hEnter
  have hBody := eval_comes hCall c.body hFormed (hScope _ rfl).1 (.leave :: stack)
  have hStep : (⟨.call (.closure c) args, stack, depth, w⟩ : State).step limit =
      some ⟨.eval w.store.next c.body, .leave :: stack, depth + 1,
        (w.addFrame ⟨bindParams [] c.params args, some c.env⟩).2⟩ := by
    simp only [State.step, State.makeCall, Value.isCallable, if_neg (Nat.not_le.mpr hDepth)]
    rfl
  rw [callWithin, EvalM.runIn_bind]
  exact .step hStep (hBody.trans (.step rfl (.refl _)))

theorem native_comes (hCall : CallsCome limit (depth + 1) remaining) (hDepth : depth < limit)
    {w : World} (h : w.Formed) (n : Native) {args : List Value}
    (hArgs : ∀ a ∈ args, a.Live w.store) :
    Comes limit depth w (.call (.native n) args)
      ((callWithin limit (remaining + 1) (.native n) args).runIn w) := by
  rw [callWithin, EvalM.runIn_ofStep]
  cases hBody : w.natives[n.id]? with
  | none =>
    refine .step (fun stack => ?_) (comes_give _)
    simp only [State.step, State.makeCall, Value.isCallable, if_neg (Nat.not_le.mpr hDepth), hBody]
    rfl
  | some body =>
    intro stack
    have hScript : Comes limit (depth + 1) w (.script (body args))
        ((runScript (callWithin limit remaining) (body args)).runIn w) := by
      rcases h.natives body (Array.mem_of_getElem? hBody) with rfl | rfl
      · exact wan_comes w args
      · exact time_comes hCall h hArgs
    have hStep : (⟨.call (.native n) args, stack, depth, w⟩ : State).step limit =
        some ⟨.script (body args), .leave :: stack, depth + 1, w⟩ := by
      simp only [State.step, State.makeCall, Value.isCallable, if_neg (Nat.not_le.mpr hDepth),
        hBody]
      rfl
    exact .step hStep ((hScript (.leave :: stack)).trans (.step rfl (.refl _)))

/-- **Every call comes to an end.** The induction is on the calls still allowed: a call enters its
body with one less. -/
theorem call_comes {limit depth : Nat} (hRemaining : limit - depth = remaining) :
    CallsCome limit depth remaining := by
  induction remaining generalizing depth with
  | zero =>
    intro w f args _ _ _
    have hDepth : limit ≤ depth := Nat.le_of_sub_eq_zero hRemaining
    rw [callWithin]
    refine .step (fun stack => ?_) (comes_give _)
    cases f <;> simp only [State.step, State.makeCall, Value.isCallable, if_pos hDepth] <;> rfl
  | succ remaining ih =>
    intro w f args h hf hArgs
    have hDepth : depth < limit := by omega
    have hInner : CallsCome limit (depth + 1) remaining := ih (by omega)
    cases f with
    | closure c => exact closure_comes hInner hDepth h hf hArgs
    | native n => exact native_comes hInner hDepth h n hArgs
    | number | string | boolean =>
      rw [callWithin_refused limit _ rfl]
      exact .step (fun _ => rfl) (comes_give _)

end Calls

-- ----------------------------------------------------------------------------
-- Ends
-- ----------------------------------------------------------------------------

/-- The machine comes to an end with `out`: after some number of steps, and no more, with nothing
waiting and as many calls under way as at the start. What is under way descends all the time. -/
structure Ends (limit depth : Nat) (w : World) (control : Control)
    (out : Except EvalError Value × World) : Prop where
  finite   : ∃ count,
    (⟨control, [], depth, w⟩ : State).after limit count = some ⟨.give out.1, [], depth, out.2⟩ ∧
    ∀ k m, (⟨control, [], depth, w⟩ : State).after limit k = some m → k ≤ count
  descends : ∀ k m, (⟨control, [], depth, w⟩ : State).after limit k = some m → m.Descends limit

theorem Comes.ends {limit depth : Nat} {w : World} {control : Control}
    {out : Except EvalError Value × World} (h : Comes limit depth w control out) :
    Ends limit depth w control out := by
  obtain ⟨count, hCount⟩ := h []
  refine ⟨⟨count, hCount, ?_⟩, ?_⟩
  · intro k m hAfter
    exact State.le_of_after hCount rfl hAfter
  · intro k m hAfter
    exact (descends_start control depth w).after hAfter

/--
**Every evaluation ends.** In a well-formed world, with any number of calls
under way and any limit on them: the evaluation of every expression in every
frame, and the call of every value, takes finitely many steps and ends with the
value or the error that the evaluator gives. At every moment, what is under way
descends in the calls still allowed and the size.
-/
theorem every_evaluation_ends {w : World} (hFormed : w.Formed) (limit depth : Nat) :
    (∀ env n, env < w.store.next →
      Ends limit depth w (.eval env n)
        ((evalNode (callWithin limit (limit - depth)) env n).runIn w)) ∧
    (∀ f args, f.Live w.store → (∀ a ∈ args, a.Live w.store) →
      Ends limit depth w (.call f args) ((callWithin limit (limit - depth) f args).runIn w)) := by
  have hCalls : CallsCome limit depth (limit - depth) := call_comes rfl
  constructor
  · intro env n hEnv
    exact (eval_comes hCalls n hFormed hEnv).ends
  · intro f args hf hArgs
    exact (hCalls w f args hFormed hf hArgs).ends

end Zaban.Stepwise

namespace Zaban

theorem World.formed_empty (sink : Sink) (clock : Nat → Nat) : (World.empty sink clock).Formed :=
  (start_formed sink clock).world

/-- The world with a fresh root, in which the functions that every program finds are bound. -/
def World.withRoot (w : World) : World :=
  w.addRoot.2.installStandard w.addRoot.1

theorem World.Formed.withRoot {w : World} (h : w.Formed) : w.withRoot.Formed := by
  have hRoot : w.addRoot.2.Formed :=
    h.addFrame (fun o hOuter => by cases hOuter) fun x v hBound => by cases hBound
  exact (hRoot.install "wan" (Or.inl rfl)).install "time" (Or.inr rfl)

theorem bareWorld_formed : bareWorld.Formed :=
  (World.formed_empty _ _).withRoot

/-- A function that is larger than its call and calls itself without end, inside `time`. -/
def endless : Node :=
  .program [
    .assignment (.var "again") (.lambda [] (.program [
      .call (.var "wan") [.string "again"], .call (.var "time") [.var "again"]])),
    .call (.var "again") []]

/-- With one call under way, four more are made, and all are left again. -/
theorem every_evaluation_ends_endless :
    ((evalNode (callWithin 5 (5 - 1)) 0 endless).runIn bareWorld).1 =
        .error (.callDepthExceeded 5) ∧
      Stepwise.Ends 5 1 bareWorld (.eval 0 endless)
        ((evalNode (callWithin 5 (5 - 1)) 0 endless).runIn bareWorld) := by
  refine ⟨by cbv, ?_⟩
  exact (Stepwise.every_evaluation_ends bareWorld_formed 5 1).1 0 endless (by decide)

end Zaban
