import Mathlib
import Zaban.Proofs.Eval.CallDepth
import Zaban.Proofs.Eval.Paired

/-!
# A sink that fills up

A sink with a quota takes everything up to a point and then nothing. Compare a
run with such a sink to the same run with one that takes everything. They go
the same way until a write goes beyond the quota. That write is cut off where
the sink is full, and its refusal is an error, which ends the limited run:
nothing of the language catches errors.

`time` is the one place where the limited run goes on behind an error. It
writes its report also for a call that failed, and if the report is refused it
ends with that refusal in place of the error of the call. So an error that was
on its way may still turn into a refusal, and a refusal passes through any
number of measured calls: a full sink refuses every report, because a report
is not empty (`report_full`).

`Fills q x` says all this of a computation `x` and a quota `q`. It is a pairing
(`fills_pairing`), so it holds of every expression if it holds of the calls,
and of the calls by induction on the calls still allowed (`callWithin_fills`).
-/

namespace Zaban

-- ----------------------------------------------------------------------------
-- Worlds with a quota
-- ----------------------------------------------------------------------------

/-- The world with the quota `q` on its output. -/
def World.limited (w : World) (q : Quota) : World :=
  { w with sink := { w.sink with quota := some q } }

/-- The world with more bytes written. -/
def World.printed (w : World) (bytes : Array UInt8) : World :=
  { w with sink := { w.sink with written := w.sink.written ++ bytes } }

theorem World.write_unlimited {w : World} (h : w.sink.quota = none) (text : String) :
    w.write text = (.ok (), w.printed text.toUTF8.data) := by
  have hSink : w.sink.write text =
      (none, { w.sink with written := w.sink.written ++ text.toUTF8.data }) := by
    simp only [Sink.write, h]
  simp only [World.write, hSink]
  rfl

theorem World.write_limited (w : World) (q : Quota) (text : String) :
    (w.limited q).write text =
      (if text.toUTF8.data.size ≤ q.bytes - w.sink.written.size then .ok ()
        else .error (.output q.refusal),
        (w.printed (text.toUTF8.data.take (q.bytes - w.sink.written.size))).limited q) := by
  have hSink : (w.limited q).sink.write text =
      (if text.toUTF8.data.size ≤ q.bytes - w.sink.written.size then none else some q.refusal,
        { (w.limited q).sink with
          written := w.sink.written ++ text.toUTF8.data.take (q.bytes - w.sink.written.size) }) :=
    rfl
  unfold World.write
  rw [hSink]
  by_cases hFits : text.toUTF8.data.size ≤ q.bytes - w.sink.written.size
  · rw [if_pos hFits, if_pos hFits]
    rfl
  · rw [if_neg hFits, if_neg hFits]
    rfl

/-- The sink of `u` is full, and holds as much of the output of `v` as the quota `q` allows, which
is not all of it. -/
structure Full (q : Quota) (v u : World) : Prop where
  quota   : u.sink.quota = some q
  written : u.sink.written = v.sink.written.take q.bytes
  beyond  : q.bytes < v.sink.written.size

theorem take_append_of_size_le {a b : Array UInt8} {n : Nat} (h : a.size ≤ n) :
    (a ++ b).take n = a ++ b.take (n - a.size) := by
  rw [Array.take_eq_extract, Array.take_eq_extract, Array.extract_append, Nat.zero_sub,
    Array.extract_eq_self_of_le h]

theorem take_append_of_le_size {a b : Array UInt8} {n : Nat} (h : n ≤ a.size) :
    (a ++ b).take n = a.take n := by
  rw [Array.take_eq_extract, Array.take_eq_extract, Array.extract_append, Nat.sub_eq_zero_of_le h,
    Nat.zero_sub, Array.extract_zero, Array.append_empty]

/-- What the unlimited run writes later does not matter to a full sink. -/
theorem Full.mono {q : Quota} {v v' u : World} (h : Full q v u) {more : Array UInt8}
    (hMore : v'.sink.written = v.sink.written ++ more) : Full q v' u where
  quota := h.quota
  written := by rw [h.written, hMore, take_append_of_le_size (Nat.le_of_lt h.beyond)]
  beyond := by
    have hBeyond := h.beyond
    rw [hMore, Array.size_append]
    omega

/-- A full sink refuses a text that is not empty, and stays as it is. -/
theorem Full.write {q : Quota} {v u : World} (h : Full q v u) {text : String}
    (hText : 0 < text.toUTF8.data.size) :
    ∃ u', u.write text = (.error (.output q.refusal), u') ∧ Full q v u' := by
  have hSize : u.sink.written.size = q.bytes := by
    have hBeyond := h.beyond
    rw [h.written, Array.take_eq_extract, Array.size_extract]
    omega
  have hNone : ¬ text.toUTF8.data.size ≤ 0 := Nat.not_le.mpr hText
  have hWrite : u.sink.write text =
      (some q.refusal, { u.sink with written := u.sink.written ++ text.toUTF8.data.take 0 }) := by
    simp only [Sink.write, h.quota, hSize, Nat.sub_self, if_neg hNone]
  unfold World.write
  rw [hWrite]
  refine ⟨_, rfl, h.quota, ?_, h.beyond⟩
  rw [Array.take_eq_extract, Array.extract_zero, Array.append_empty, h.written]

-- ----------------------------------------------------------------------------
-- Runs that are cut
-- ----------------------------------------------------------------------------

/-- What a limited run ends with, where the unlimited one ends with `result` in the world `v`. -/
inductive Cut (q : Quota) {α : Type} (result : Except EvalError α) (v : World) :
    Except EvalError α × World → Prop where
  /-- All output fits, and the runs end alike. -/
  | fits (hFits : v.sink.written.size ≤ q.bytes) : Cut q result v (result, v.limited q)
  /-- The sink has filled up. -/
  | full {u : World} (hFull : Full q v u) : Cut q result v (.error (.output q.refusal), u)

/-- From every standard world `x` ends in a standard world, with nothing taken back of what was
written; and if the quota `q` is not used up, the limited run is cut by it and by nothing else. -/
def Fills (q : Quota) {α : Type} (x : EvalM α) : Prop :=
  ∀ w : World, w.Standard → ∃ more, (x.runIn w).2.sink.written = w.sink.written ++ more ∧
    (x.runIn w).2.Standard ∧
    (w.sink.written.size ≤ q.bytes →
      Cut q (x.runIn w).1 (x.runIn w).2 (x.runIn (w.limited q)))

section Rules

variable {q : Quota} {α β : Type}

/-- A step that has nothing to do with the sink. -/
theorem Fills.step {f : World → Except EvalError α × World}
    (hLimited : ∀ w : World, f (w.limited q) = ((f w).1, (f w).2.limited q))
    (hSink : ∀ w : World, (f w).2.sink = w.sink) (hNatives : ∀ w : World,
      (f w).2.natives = w.natives) : Fills q (EvalM.ofStep f) := by
  intro w hw
  simp only [EvalM.runIn_ofStep, hLimited]
  refine ⟨#[], ?_, hw.of_eq (hNatives w) (congrArg Sink.quota (hSink w)), ?_⟩
  · rw [hSink, Array.append_empty]
  · intro hRoom
    refine .fits ?_
    rw [hSink]
    exact hRoom

theorem Fills.result (r : Except EvalError α) : Fills q (EvalM.ofStep fun w => (r, w)) :=
  .step (fun _ => rfl) (fun _ => rfl) fun _ => rfl

/-- A limited run that filled its sink is over, and the unlimited one goes on writing. -/
theorem Fills.bind {x : EvalM α} {f : α → EvalM β} (hx : Fills q x) (hf : ∀ a, Fills q (f a)) :
    Fills q (x >>= f) := by
  intro w hw
  obtain ⟨more, hMore, hStandard, hCut⟩ := hx w hw
  simp only [EvalM.runIn_bind]
  rcases hRun : x.runIn w with ⟨r, v⟩
  rw [hRun] at hMore hStandard hCut
  cases r with
  | error e =>
    refine ⟨more, hMore, hStandard, fun hRoom => ?_⟩
    have hEnd := hCut hRoom
    generalize x.runIn (w.limited q) = limited at hEnd ⊢
    cases hEnd with
    | fits hFits => exact .fits hFits
    | full hFull => exact .full hFull
  | ok a =>
    obtain ⟨more', hMore', hStandard', hCut'⟩ := hf a v hStandard
    refine ⟨more ++ more', ?_, hStandard', fun hRoom => ?_⟩
    · calc ((f a).runIn v).2.sink.written = v.sink.written ++ more' := hMore'
        _ = w.sink.written ++ more ++ more' := congrArg (· ++ more') hMore
        _ = w.sink.written ++ (more ++ more') := Array.append_assoc
    · have hEnd := hCut hRoom
      generalize x.runIn (w.limited q) = limited at hEnd ⊢
      cases hEnd with
      | fits hFits => exact hCut' hFits
      | full hFull => exact .full (hFull.mono hMore')

end Rules

/-- A write that fits is taken, and one that does not fills the sink. -/
theorem write_fills (q : Quota) (text : String) :
    Fills q (EvalM.ofStep fun w => w.write text) := by
  intro w hw
  have hWrite := World.write_unlimited hw.unlimited text
  simp only [EvalM.runIn_ofStep, World.write_limited, hWrite]
  refine ⟨text.toUTF8.data, rfl, hw.of_eq rfl rfl, fun hRoom => ?_⟩
  by_cases hFits : text.toUTF8.data.size ≤ q.bytes - w.sink.written.size
  · rw [if_pos hFits, Array.take_eq_extract, Array.extract_eq_self_of_le hFits]
    refine .fits ?_
    simp only [World.printed, Array.size_append]
    omega
  · rw [if_neg hFits]
    refine .full ⟨rfl, (take_append_of_size_le hRoom).symm, ?_⟩
    simp only [World.printed, Array.size_append]
    omega

theorem clock_fills (q : Quota) :
    Fills q (EvalM.ofStep fun w =>
      let (now, w) := w.readClock
      (.ok now, w)) :=
  .step (fun _ => rfl) (fun _ => rfl) fun _ => rfl

-- ----------------------------------------------------------------------------
-- Expressions
-- ----------------------------------------------------------------------------

/-- Only writes look at the sink, so each step of an evaluation is cut as it should be. -/
theorem fills_pairing (q : Quota) : Pairing fun x _ => Fills q x where
  pure a := .result (.ok a)
  bind hx hf := .bind hx hf
  look env name := by
    refine .step (fun w => ?_) (fun w => ?_) (fun w => ?_)
    · dsimp only [World.limited]
      split <;> rfl
    · split <;> rfl
    · split <;> rfl
  assign env name v := by
    refine .step (fun w => ?_) (fun w => ?_) (fun w => ?_)
    · dsimp only [World.limited, World.assign]
      split <;> rfl
    · dsimp only [World.assign]
      split <;> rfl
    · dsimp only [World.assign]
      split <;> rfl
  refuse target := .result (.error (.invalidTarget target))
  apply op l r := .result (op.apply l r)
  close params body env := .step (fun _ => rfl) (fun _ => rfl) fun _ => rfl

theorem evalNode_fills {q : Quota} {call : Caller} (hCall : ∀ f args, Fills q (call f args))
    (env : FrameId) (n : Node) : Fills q (evalNode call env n) :=
  @Pairing.node (fun x _ => Fills q x) call call env (fills_pairing q) hCall n

-- ----------------------------------------------------------------------------
-- Calls
-- ----------------------------------------------------------------------------

section Calls

variable {q : Quota} {call : Caller}

theorem wan_fills (args : List Value) : Fills q (runScript call (Script.wan args)) := by
  simp only [Script.wan, runScript]
  exact (write_fills q _).bind fun _ => .result _

theorem report_fills (started : Nat) (result : Except EvalError Value) :
    Fills q (runScript call (Script.report started result)) := by
  simp only [Script.report, runScript]
  refine (clock_fills q).bind fun ended => ?_
  exact (write_fills q _).bind fun _ => .result _

/-- **A full sink refuses a report**, whatever the measured call ended with. -/
theorem report_full {v u : World} (h : Full q v u) (started : Nat)
    (result : Except EvalError Value) :
    ∃ u', (runScript call (Script.report started result)).runIn u =
      (.error (.output q.refusal), u') ∧ Full q v u' := by
  have hTicked : Full q v u.readClock.2 := ⟨h.quota, h.written, h.beyond⟩
  have hText : 0 <
      ("time: " ++ toString (u.readClock.1 - started) ++ "ms\n").toUTF8.data.size := by
    have hUnit : "ms\n".utf8ByteSize = 3 := rfl
    change 0 < ("time: " ++ toString (u.readClock.1 - started) ++ "ms\n").utf8ByteSize
    rw [String.utf8ByteSize_append, hUnit]
    omega
  obtain ⟨u', hWrite, hFull⟩ := hTicked.write hText
  refine ⟨u', ?_, hFull⟩
  simp only [Script.report, runScript, EvalM.runIn_bind, EvalM.runIn_ofStep, hWrite]

/-- `time` writes its report behind a call that filled the sink, too. -/
theorem time_fills (hCall : ∀ f args, Fills q (call f args)) (args : List Value) :
    Fills q (runScript call (Script.time args)) := by
  rw [time_eq, runScript]
  refine (clock_fills q).bind fun started => ?_
  intro w hw
  obtain ⟨more, hMore, hStandard, hCut⟩ := hCall (Script.firstArg args) [] w hw
  simp only [runScript, EvalM.runIn_ofStep]
  rcases hRun : (call (Script.firstArg args) []).runIn w with ⟨r, v⟩
  rw [hRun] at hMore hStandard hCut
  have hReports : Fills q (runScript call (Script.report started r)) := report_fills started r
  obtain ⟨more', hMore', hStandard', hCut'⟩ := hReports v hStandard
  refine ⟨more ++ more', ?_, hStandard', fun hRoom => ?_⟩
  · calc ((runScript call (Script.report started r)).runIn v).2.sink.written =
        v.sink.written ++ more' := hMore'
      _ = w.sink.written ++ more ++ more' := congrArg (· ++ more') hMore
      _ = w.sink.written ++ (more ++ more') := Array.append_assoc
  · have hEnd := hCut hRoom
    generalize (call (Script.firstArg args) []).runIn (w.limited q) = limited at hEnd ⊢
    cases hEnd with
    | fits hFits => exact hCut' hFits
    | full hFull =>
      -- the limited run reports an error where the unlimited one may report a value
      obtain ⟨u', hReport, hFull'⟩ := report_full (hFull.mono hMore') started
        (.error (.output q.refusal))
      rw [hReport]
      exact .full hFull'

/-- **Every call is cut by the quota and by nothing else.** -/
theorem callWithin_fills (limit remaining : Nat) (f : Value) (args : List Value) :
    Fills q (callWithin limit remaining f args) := by
  induction remaining generalizing f args with
  | zero =>
    rw [callWithin]
    exact .result _
  | succ remaining ih =>
    cases f with
    | closure c =>
      rw [callWithin]
      refine Fills.bind (.step (fun _ => rfl) (fun _ => rfl) fun _ => rfl) fun scope => ?_
      exact evalNode_fills ih scope c.body
    | native n =>
      rw [callWithin]
      intro w hw
      have hNatives : (w.limited q).natives = w.natives := rfl
      simp only [EvalM.runIn_ofStep, hNatives]
      split
      · rename_i body hBody
        rcases hw.natives body (Array.mem_of_getElem? hBody) with rfl | rfl
        · exact wan_fills args w hw
        · exact time_fills ih args w hw
      · exact Fills.result (.error (.notCallable (.native n))) w hw
    | number | string | boolean =>
      rw [callWithin_refused limit _ rfl]
      exact .result _

end Calls

-- ----------------------------------------------------------------------------
-- Evaluations
-- ----------------------------------------------------------------------------

/--
**A sink that fills up cuts the run there.** Of an evaluation in a standard
world, and the same evaluation with a quota on the output that is not used up
at the start: the limited sink ends up with what the unlimited one holds, as
far as the quota allows. If all of it is allowed, the evaluations end alike, in
worlds that differ in the quota only. If not, the limited one ends with the
refusal of the sink.
-/
theorem full_sink_cuts_run {w : World} (hStandard : w.Standard) (q : Quota)
    (hRoom : w.sink.written.size ≤ q.bytes) (limit : Nat) (env : FrameId) (n : Node) :
    let free := (evaluate ⟨limit⟩ env n).runIn w
    let limited := (evaluate ⟨limit⟩ env n).runIn (w.limited q)
    limited.2.sink.written = free.2.sink.written.take q.bytes ∧
      (free.2.sink.written.size ≤ q.bytes → limited = (free.1, free.2.limited q)) ∧
      (q.bytes < free.2.sink.written.size → limited.1 = .error (.output q.refusal)) := by
  intro free limited
  have hFills : Fills q (evaluate ⟨limit⟩ env n) :=
    evalNode_fills (callWithin_fills limit limit) env n
  obtain ⟨-, -, -, hCut⟩ := hFills w hStandard
  have hEnd : Cut q free.1 free.2 limited := hCut hRoom
  generalize limited = ends at hEnd
  cases hEnd with
  | fits hFits =>
    refine ⟨?_, fun _ => rfl, fun hBeyond => absurd hFits (Nat.not_le.mpr hBeyond)⟩
    rw [Array.take_eq_extract, Array.extract_eq_self_of_le hFits]
    rfl
  | full hFull =>
    exact ⟨hFull.written, fun hFits => absurd hFits (Nat.not_le.mpr hFull.beyond), fun _ => rfl⟩

/-- A function that writes and then fails, measured by a call that is measured itself. -/
def failingGreeting : Node :=
  .call (.var "time") [.lambda [] (.call (.var "time") [.lambda [] (.program
    [.call (.var "wan") [.string "salaam"], .var "salaam"])])]

/-- The greeting fits, and the inner report is cut while the error of the function is on its way. -/
theorem full_sink_cuts_run_failingGreeting :
    ((evaluate ⟨10⟩ 0 failingGreeting).runIn bareWorld).1 =
        .error (.undefinedVariable "salaam") ∧
      ((evaluate ⟨10⟩ 0 failingGreeting).runIn (bareWorld.limited ⟨10, "closed"⟩)).1 =
        .error (.output "closed") ∧
      ((evaluate ⟨10⟩ 0 failingGreeting).runIn
        (bareWorld.limited ⟨10, "closed"⟩)).2.sink.written = "salaam\ntim".toUTF8.data := by
  have hFree : ((evaluate ⟨10⟩ 0 failingGreeting).runIn bareWorld).1 =
      .error (.undefinedVariable "salaam") := by cbv
  have hOutput : ((evaluate ⟨10⟩ 0 failingGreeting).runIn bareWorld).2.sink.written =
      "salaam\ntime: 0ms\ntime: 0ms\n".toUTF8.data := by decide +kernel
  obtain ⟨hWritten, -, hEnd⟩ :=
    full_sink_cuts_run bareWorld_standard ⟨10, "closed"⟩ (Nat.zero_le _) 10 0 failingGreeting
  rw [hOutput] at hWritten hEnd
  exact ⟨hFree, hEnd (by decide +kernel), hWritten.trans (by decide +kernel)⟩

end Zaban
