import Zaban.Eval.Natives
import Zaban.Proofs.Eval.Frames

/-!
# The limit on calls is a cut-off

An evaluation carries the number of calls that it may still have under way.
Only `callWithin` looks at that number, and all it does with it is to refuse a
call. So two evaluations that differ in their limits go the same way until
one of them refuses a call that the other makes.

`CutOff limit x y` says this of a computation `x` and the same computation `y`
under a larger limit: `x` ends because its limit is exceeded, or it ends as
`y` does. The rules for single steps and for one step after another are proved
once, and give:

* `evalNode_cutOff`   — for every expression, if the calls are cut off;
* `callWithin_cutOff` — for every call, by induction on the calls still
  allowed.

The second needs to know what native functions do with a failed call. `wan`
makes none, and `time` ends as its call did, provided that its report is
written: in a **standard** world, where only these two are at hand and the
sink takes everything, an exceeded limit is passed on as it is.
-/

namespace Zaban

-- ----------------------------------------------------------------------------
-- Standard worlds
-- ----------------------------------------------------------------------------

/-- The native functions are `wan` and `time`, and the sink never refuses a write. -/
structure World.Standard (w : World) : Prop where
  natives   : ∀ body ∈ w.natives, body = Script.wan ∨ body = Script.time
  unlimited : w.sink.quota = none

/-- Only the native functions and the quota of the sink matter to a standard world. -/
theorem World.Standard.of_eq {w w' : World} (h : w.Standard) (hNatives : w'.natives = w.natives)
    (hQuota : w'.sink.quota = w.sink.quota) : w'.Standard :=
  ⟨hNatives ▸ h.natives, hQuota.trans h.unlimited⟩

/-- A standard world takes every text, and stays one. -/
theorem World.Standard.write {w : World} (h : w.Standard) (text : String) :
    (w.write text).1 = .ok () ∧ (w.write text).2.Standard := by
  have hWrite : w.sink.write text =
      (none, { w.sink with written := w.sink.written ++ text.toUTF8.data }) := by
    simp only [Sink.write, h.unlimited]
  unfold World.write
  rw [hWrite]
  exact ⟨rfl, h.of_eq rfl rfl⟩

/-- The computation did not end because a limit on calls was exceeded. -/
def Unexceeded {α : Type} (result : Except EvalError α) : Prop :=
  ∀ limit, result ≠ .error (.callDepthExceeded limit)

theorem unexceeded_ok {α : Type} (a : α) : Unexceeded (.ok a : Except EvalError α) := by
  rintro limit ⟨⟩

-- ----------------------------------------------------------------------------
-- Computations that are cut off
-- ----------------------------------------------------------------------------

/-- From every standard world `x` ends in a standard world: with its limit exceeded, or as `y` ends
and with no limit exceeded. -/
def CutOff (limit : Nat) {α : Type} (x y : EvalM α) : Prop :=
  ∀ w : World, w.Standard → (x.runIn w).2.Standard ∧
    ((x.runIn w).1 = .error (.callDepthExceeded limit) ∨
      y.runIn w = x.runIn w ∧ Unexceeded (x.runIn w).1)

section Rules

variable {limit : Nat} {α β : Type}

/-- A step that does not depend on the limit. -/
theorem CutOff.step {f : World → Except EvalError α × World}
    (h : ∀ w : World, w.Standard → (f w).2.Standard ∧ Unexceeded (f w).1) :
    CutOff limit (EvalM.ofStep f) (EvalM.ofStep f) := by
  intro w hw
  obtain ⟨hStandard, hUnexceeded⟩ := h w hw
  exact ⟨hStandard, Or.inr ⟨rfl, hUnexceeded⟩⟩

theorem CutOff.result {r : Except EvalError α} (h : Unexceeded r) :
    CutOff limit (EvalM.ofStep fun w => (r, w)) (EvalM.ofStep fun w => (r, w)) :=
  .step fun _ hw => ⟨hw, h⟩

theorem CutOff.pure (a : α) : CutOff limit (pure a : EvalM α) (pure a) :=
  .result (unexceeded_ok a)

theorem CutOff.throw {e : EvalError} (h : ∀ k, e ≠ .callDepthExceeded k) :
    CutOff limit (throw e : EvalM α) (throw e) :=
  .result fun k hk => h k (Except.error.inj hk)

/-- An exceeded limit ends a sequence of steps, whatever was to follow. -/
theorem CutOff.bind {x y : EvalM α} {f g : α → EvalM β} (hx : CutOff limit x y)
    (hf : ∀ a, CutOff limit (f a) (g a)) : CutOff limit (x >>= f) (y >>= g) := by
  intro w hw
  obtain ⟨hStandard, hEnd⟩ := hx w hw
  rw [EvalM.runIn_bind, EvalM.runIn_bind]
  rcases hRun : x.runIn w with ⟨r, v⟩
  rw [hRun] at hStandard hEnd
  rcases hEnd with hExceeded | ⟨hSame, hUnexceeded⟩
  · obtain rfl : r = .error (.callDepthExceeded limit) := hExceeded
    exact ⟨hStandard, Or.inl rfl⟩
  · rw [hSame]
    cases r with
    | ok a => exact hf a v hStandard
    | error e =>
      refine ⟨hStandard, Or.inr ⟨rfl, ?_⟩⟩
      intro k hk
      exact hUnexceeded k (congrArg Except.error (Except.error.inj hk))

end Rules

-- ----------------------------------------------------------------------------
-- Operators
-- ----------------------------------------------------------------------------

theorem Unexceeded.bind {α β : Type} {x : Except EvalError α} {f : α → Except EvalError β}
    (hx : Unexceeded x) (hf : ∀ a, Unexceeded (f a)) : Unexceeded (x >>= f) := by
  cases x with
  | ok a => exact hf a
  | error e =>
    intro k hk
    exact hx k (congrArg Except.error (Except.error.inj hk))

theorem operand_unexceeded (op : BinaryOp) (v : Value) : Unexceeded (v.operand op) := by
  cases v <;> rintro limit ⟨⟩

theorem divisor_unexceeded (op : BinaryOp) (v : Value) : Unexceeded (v.divisor op) := by
  refine (operand_unexceeded op v).bind fun x => ?_
  split
  · rintro limit ⟨⟩
  · exact unexceeded_ok x

/-- An operator calls nothing. -/
theorem apply_unexceeded (op : BinaryOp) (l r : Value) : Unexceeded (op.apply l r) := by
  have hArithmetic : ∀ op f, Unexceeded (Value.arithmetic op f l r) := fun op f =>
    (operand_unexceeded op l).bind fun _ => (operand_unexceeded op r).bind fun _ => unexceeded_ok _
  have hComparison : ∀ op f, Unexceeded (Value.comparison op f l r) := fun op f =>
    (operand_unexceeded op l).bind fun _ => (operand_unexceeded op r).bind fun _ => unexceeded_ok _
  have hDivision : ∀ op f, Unexceeded (Value.division op f l r) := fun op f =>
    (operand_unexceeded op l).bind fun _ => (divisor_unexceeded op r).bind fun _ => unexceeded_ok _
  cases op with
  | or | and | equal | notEqual => exact unexceeded_ok _
  | less | greater | lessEqual | greaterEqual => exact hComparison _ _
  | plus | minus | times => exact hArithmetic _ _
  | divide | modulo => exact hDivision _ _

-- ----------------------------------------------------------------------------
-- Expressions
-- ----------------------------------------------------------------------------

section Expressions

variable {limit : Nat} {call call' : Caller} {env : FrameId}

/-- A name is looked up or is unknown, whatever the limit. -/
theorem look_cutOff (name : String) :
    CutOff limit (evalNode call env (.var name)) (evalNode call' env (.var name)) := by
  rw [evalNode, evalNode]
  refine .step fun w hw => ?_
  split
  · exact ⟨hw, unexceeded_ok _⟩
  · exact ⟨hw, by rintro k ⟨⟩⟩

theorem assign_cutOff (name : String) (v : Value) :
    CutOff limit (EvalM.ofStep fun w => w.assign env name v)
      (EvalM.ofStep fun w => w.assign env name v) := by
  refine .step fun w hw => ?_
  unfold World.assign
  split
  · exact ⟨hw.of_eq rfl rfl, unexceeded_ok _⟩
  · exact ⟨hw, by rintro k ⟨⟩⟩

mutual

/-- **Every expression is cut off**, if the calls are. -/
theorem evalNode_cutOff (hCall : ∀ f args, CutOff limit (call f args) (call' f args)) :
    ∀ n, CutOff limit (evalNode call env n) (evalNode call' env n)
  | .number x => by
    rw [evalNode, evalNode]
    exact .pure _
  | .string s => by
    rw [evalNode, evalNode]
    exact .pure _
  | .boolean b => by
    rw [evalNode, evalNode]
    exact .pure _
  | .var name => look_cutOff name
  | .assignment target value => by
    cases target with
    | var name =>
      rw [evalNode, evalNode]
      exact (evalNode_cutOff hCall value).bind fun v => assign_cutOff name v
    | program | assignment | binary | condition | lambda | call | number | string | boolean =>
      rw [evalNode, evalNode]
      · exact .throw (by rintro k ⟨⟩)
      all_goals
        intro name h
        cases h
  | .binary op left right => by
    rw [evalNode, evalNode]
    refine (evalNode_cutOff hCall left).bind fun l => ?_
    split
    · exact .pure _
    · refine (evalNode_cutOff hCall right).bind fun r => ?_
      exact .result (apply_unexceeded op l r)
  | .condition test yes no => by
    rw [evalNode, evalNode]
    refine (evalNode_cutOff hCall test).bind fun v => ?_
    split
    · exact evalElse_cutOff hCall no
    · exact evalNode_cutOff hCall yes
  | .program body => by
    rw [evalNode, evalNode]
    exact evalSequence_cutOff hCall _ body
  | .lambda params body => by
    rw [evalNode, evalNode]
    exact .step fun w hw => ⟨hw.of_eq rfl rfl, unexceeded_ok _⟩
  | .call callee args => by
    rw [evalNode, evalNode]
    refine (evalNode_cutOff hCall callee).bind fun f => ?_
    refine (evalArgs_cutOff hCall args).bind fun vs => ?_
    exact hCall f vs

theorem evalElse_cutOff (hCall : ∀ f args, CutOff limit (call f args) (call' f args)) :
    ∀ no, CutOff limit (evalElse call env no) (evalElse call' env no)
  | none => by
    rw [evalElse, evalElse]
    exact .pure _
  | some n => by
    rw [evalElse, evalElse]
    exact evalNode_cutOff hCall n

theorem evalSequence_cutOff (hCall : ∀ f args, CutOff limit (call f args) (call' f args))
    (last : Value) :
    ∀ ns, CutOff limit (evalSequence call env last ns) (evalSequence call' env last ns)
  | [] => by
    rw [evalSequence, evalSequence]
    exact .pure _
  | n :: ns => by
    rw [evalSequence, evalSequence]
    exact (evalNode_cutOff hCall n).bind fun v => evalSequence_cutOff hCall v ns

theorem evalArgs_cutOff (hCall : ∀ f args, CutOff limit (call f args) (call' f args)) :
    ∀ ns, CutOff limit (evalArgs call env ns) (evalArgs call' env ns)
  | [] => by
    rw [evalArgs, evalArgs]
    exact .pure _
  | n :: ns => by
    rw [evalArgs, evalArgs]
    refine (evalNode_cutOff hCall n).bind fun v => ?_
    exact (evalArgs_cutOff hCall ns).bind fun vs => .pure _

end

end Expressions

-- ----------------------------------------------------------------------------
-- Calls
-- ----------------------------------------------------------------------------

section Calls

variable {limit : Nat} {call call' : Caller}

theorem write_cutOff (text : String) :
    CutOff limit (EvalM.ofStep fun w => w.write text) (EvalM.ofStep fun w => w.write text) := by
  refine .step fun w hw => ?_
  obtain ⟨hTaken, hStandard⟩ := hw.write text
  rw [hTaken]
  exact ⟨hStandard, unexceeded_ok ()⟩

theorem clock_cutOff :
    CutOff limit
      (EvalM.ofStep fun w =>
        let (now, w) := w.readClock
        (.ok now, w))
      (EvalM.ofStep fun w =>
        let (now, w) := w.readClock
        (.ok now, w)) :=
  .step fun _ hw => ⟨hw.of_eq rfl rfl, unexceeded_ok _⟩

/-- The script of `wan` writes and ends, and calls nothing. -/
theorem wan_cutOff (args : List Value) :
    CutOff limit (runScript call (Script.wan args)) (runScript call' (Script.wan args)) := by
  simp only [Script.wan, runScript]
  exact (write_cutOff _).bind fun _ => .result (unexceeded_ok _)

/-- What `time` does behind its call. -/
def Script.report (started : Nat) (result : Except EvalError Value) : Script :=
  .clock fun ended =>
    .write ("time: " ++ toString (ended - started) ++ "ms\n") (.done result)

theorem time_eq (args : List Value) :
    Script.time args =
      .clock fun started => .call (Script.firstArg args) [] (Script.report started) := rfl

/-- The report of `time` is written in full, and then `time` ends as its call did. It calls nothing
more. -/
theorem report_runIn {w : World} (hw : w.Standard) (started : Nat)
    (result : Except EvalError Value) :
    ∃ v : World, v.Standard ∧
      ∀ call, (runScript call (Script.report started result)).runIn w = (result, v) := by
  have hClock : w.readClock.2.Standard := hw.of_eq rfl rfl
  obtain ⟨hTaken, hStandard⟩ :=
    hClock.write ("time: " ++ toString (w.readClock.1 - started) ++ "ms\n")
  refine ⟨_, hStandard, fun call => ?_⟩
  simp only [Script.report, runScript, EvalM.runIn_bind, EvalM.runIn_ofStep]
  rcases hWrite : w.readClock.2.write _ with ⟨r, v⟩
  rw [hWrite] at hTaken
  obtain rfl : r = .ok () := hTaken
  rfl

/-- `time` hands an exceeded limit of its call on. -/
theorem time_cutOff (hCall : ∀ f args, CutOff limit (call f args) (call' f args))
    (args : List Value) :
    CutOff limit (runScript call (Script.time args)) (runScript call' (Script.time args)) := by
  rw [time_eq, runScript, runScript]
  refine clock_cutOff.bind fun started => ?_
  intro w hw
  obtain ⟨hStandard, hEnd⟩ := hCall (Script.firstArg args) [] w hw
  simp only [runScript, EvalM.runIn_ofStep]
  rcases hRun : (call (Script.firstArg args) []).runIn w with ⟨r, v⟩
  rw [hRun] at hStandard hEnd
  obtain ⟨u, hDone, hReport⟩ := report_runIn hStandard started r
  rw [hReport]
  refine ⟨hDone, ?_⟩
  rcases hEnd with hExceeded | ⟨hSame, hUnexceeded⟩
  · exact Or.inl hExceeded
  · rw [hSame]
    exact Or.inr ⟨hReport call', hUnexceeded⟩

/-- A value that is no function is refused under every limit. -/
theorem callWithin_refused (limit remaining : Nat) {f : Value} (hf : f.isCallable = false)
    (args : List Value) : callWithin limit remaining f args = throw (.notCallable f) := by
  cases remaining with
  | zero => rw [callWithin, if_neg (by simp [hf])]
  | succ remaining =>
    cases f with
    | closure | native => cases hf
    | number | string | boolean => simp only [callWithin]

/-- **Every call is cut off** by a limit that is not the larger one. -/
theorem callWithin_cutOff (limit limit' : Nat) {remaining remaining' : Nat}
    (hLe : remaining ≤ remaining') (f : Value) (args : List Value) :
    CutOff limit (callWithin limit remaining f args) (callWithin limit' remaining' f args) := by
  induction remaining generalizing remaining' f args with
  | zero =>
    rw [callWithin]
    by_cases hf : f.isCallable = true
    · rw [if_pos hf]
      exact fun w hw => ⟨hw, Or.inl rfl⟩
    · rw [if_neg hf, callWithin_refused limit' remaining' (Bool.eq_false_iff.mpr hf)]
      exact .throw (by rintro k ⟨⟩)
  | succ remaining ih =>
    obtain ⟨remaining', rfl⟩ : ∃ r, remaining' = r + 1 := ⟨remaining' - 1, by omega⟩
    have ih' := fun f args => ih (Nat.le_of_succ_le_succ hLe) f args
    cases f with
    | closure c =>
      rw [callWithin, callWithin]
      refine CutOff.bind (.step fun w hw => ⟨hw.of_eq rfl rfl, unexceeded_ok _⟩) fun scope => ?_
      exact evalNode_cutOff ih' c.body
    | native n =>
      rw [callWithin, callWithin]
      intro w hw
      simp only [EvalM.runIn_ofStep]
      split
      · rename_i body hBody
        rcases hw.natives body (Array.mem_of_getElem? hBody) with rfl | rfl
        · exact wan_cutOff args w hw
        · exact time_cutOff ih' args w hw
      · exact ⟨hw, Or.inr ⟨rfl, by rintro k ⟨⟩⟩⟩
    | number | string | boolean =>
      rw [callWithin_refused limit _ rfl, callWithin_refused limit' _ rfl]
      exact .throw (by rintro k ⟨⟩)

end Calls

-- ----------------------------------------------------------------------------
-- Evaluations
-- ----------------------------------------------------------------------------

theorem evaluate_cutOff {limit limit' : Nat} (hLe : limit ≤ limit') (env : FrameId) (n : Node) :
    CutOff limit (evaluate ⟨limit⟩ env n) (evaluate ⟨limit'⟩ env n) :=
  evalNode_cutOff (callWithin_cutOff limit limit' hLe) n

/--
**The limit on calls is a cut-off.** In a standard world, an evaluation that
ends without its limit being exceeded ends in the same way, and in the same
world, under every larger limit. One that ends because its limit is exceeded
ends so under every smaller limit, and names the limit that it has there.
-/
theorem call_limit_cuts_off {w : World} (hStandard : w.Standard) (env : FrameId) (n : Node)
    (limit : Nat) :
    (Unexceeded ((evaluate ⟨limit⟩ env n).runIn w).1 → ∀ larger, limit ≤ larger →
      (evaluate ⟨larger⟩ env n).runIn w = (evaluate ⟨limit⟩ env n).runIn w) ∧
    (((evaluate ⟨limit⟩ env n).runIn w).1 = .error (.callDepthExceeded limit) →
      ∀ smaller, smaller ≤ limit →
        ((evaluate ⟨smaller⟩ env n).runIn w).1 = .error (.callDepthExceeded smaller)) := by
  constructor
  · intro hUnexceeded larger hLe
    rcases (evaluate_cutOff hLe env n w hStandard).2 with hExceeded | ⟨hSame, -⟩
    · exact absurd hExceeded (hUnexceeded limit)
    · exact hSame
  · intro hExceeded smaller hLe
    rcases (evaluate_cutOff hLe env n w hStandard).2 with hSmaller | ⟨hSame, hUnexceeded⟩
    · exact hSmaller
    · rw [hSame] at hExceeded
      exact absurd hExceeded (hUnexceeded limit)

/-- A root with `wan` and `time`. -/
def bareWorld : World :=
  let (env, w) := (World.empty (.ofQuota none) fun _ => 0).addRoot
  w.installStandard env

theorem bareWorld_standard : bareWorld.Standard := by
  refine ⟨?_, rfl⟩
  intro body hBody
  have hNatives : bareWorld.natives = #[Script.wan, Script.time] := rfl
  simpa [hNatives] using hBody

/-- A measured call of a function that writes: three calls are under way at once. -/
def measuredGreeting : Node :=
  .call (.var "time") [.lambda [] (.call (.var "wan") [.string "salaam"])]

/-- Three calls are enough and a thousand change nothing; two are not, and neither is none. -/
theorem call_limit_cuts_off_measuredGreeting :
    (evaluate ⟨1000⟩ 0 measuredGreeting).runIn bareWorld =
      (evaluate ⟨3⟩ 0 measuredGreeting).runIn bareWorld ∧
    ((evaluate ⟨0⟩ 0 measuredGreeting).runIn bareWorld).1 = .error (.callDepthExceeded 0) := by
  have hDone : ((evaluate ⟨3⟩ 0 measuredGreeting).runIn bareWorld).1 = .ok .apuz := rfl
  have hTwo : ((evaluate ⟨2⟩ 0 measuredGreeting).runIn bareWorld).1 =
      .error (.callDepthExceeded 2) := rfl
  constructor
  · refine (call_limit_cuts_off bareWorld_standard 0 measuredGreeting 3).1 ?_ 1000 (by decide)
    rw [hDone]
    exact unexceeded_ok _
  · exact (call_limit_cuts_off bareWorld_standard 0 measuredGreeting 2).2 hTwo 0 (by decide)

end Zaban
