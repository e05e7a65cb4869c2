import Zaban.Eval.Run
import Zaban.Proofs.Eval.FullSink

/-!
# Output is appended

A sink without a quota is written to and never looked at: a run does the same
whatever was written before it, and its own output is appended to that
(`Appends`). So hosts that print something of their own between runs, or before
one, do not disturb the runs, and the output is the pieces one after another.
-/

namespace Zaban

/-- The world in which `bytes` were written before everything else. -/
def World.behind (w : World) (bytes : Array UInt8) : World :=
  { w with sink := { w.sink with written := bytes ++ w.sink.written } }

/-- The world before anything was written to a sink without a quota. -/
def World.silent (w : World) : World :=
  { w with sink := .ofQuota none }

section Worlds

variable {w : World}

theorem World.behind_silent (h : w.sink.quota = none) : w.silent.behind w.sink.written = w := by
  rcases w with ⟨store, next, natives, ⟨written, quota⟩, clock, ticks⟩
  cases h
  simp only [World.silent, World.behind, Sink.ofQuota, Array.append_empty]

theorem World.behind_printed (bytes more : Array UInt8) :
    (w.behind bytes).printed more = (w.printed more).behind bytes := by
  simp only [World.behind, World.printed, Array.append_assoc]

end Worlds

/-- Where the sink takes everything, `x` does the same whatever was written before. -/
def Appends {α : Type} (x : EvalM α) : Prop :=
  ∀ (bytes : Array UInt8) (w : World), w.sink.quota = none →
    x.runIn (w.behind bytes) = ((x.runIn w).1, (x.runIn w).2.behind bytes) ∧
      (x.runIn w).2.sink.quota = none

section Rules

variable {α β : Type}

/-- A step that has nothing to do with the sink. -/
theorem Appends.step {f : World → Except EvalError α × World}
    (hBehind : ∀ bytes w, f (World.behind w bytes) = ((f w).1, (f w).2.behind bytes))
    (hSink : ∀ w, (f w).2.sink = w.sink) : Appends (EvalM.ofStep f) :=
  fun bytes w hw => ⟨hBehind bytes w, (congrArg Sink.quota (hSink w)).trans hw⟩

theorem Appends.result (r : Except EvalError α) : Appends (EvalM.ofStep fun w => (r, w)) :=
  .step (fun _ _ => rfl) fun _ => rfl

theorem Appends.bind {x : EvalM α} {f : α → EvalM β} (hx : Appends x) (hf : ∀ a, Appends (f a)) :
    Appends (x >>= f) := by
  intro bytes w hw
  obtain ⟨hRun, hQuota⟩ := hx bytes w hw
  simp only [EvalM.runIn_bind, hRun]
  rcases hEnd : x.runIn w with ⟨r, v⟩
  rw [hEnd] at hQuota
  cases r with
  | ok a => exact hf a bytes v hQuota
  | error e => exact ⟨rfl, hQuota⟩

theorem write_appends (text : String) : Appends (EvalM.ofStep fun w => w.write text) := by
  intro bytes w hw
  have hQuota : (w.behind bytes).sink.quota = none := hw
  simp only [EvalM.runIn_ofStep, World.write_unlimited hw, World.write_unlimited hQuota,
    World.behind_printed, true_and]
  exact hw

theorem appends_pairing : Pairing fun x _ => Appends x where
  pure a := .result (.ok a)
  bind hx hf := .bind hx hf
  look env name := by
    refine .step (fun bytes w => ?_) (fun w => ?_)
    · dsimp only [World.behind]
      split <;> rfl
    · split <;> rfl
  assign env name v := by
    refine .step (fun bytes w => ?_) (fun w => ?_)
    · dsimp only [World.behind, World.assign]
      split <;> rfl
    · dsimp only [World.assign]
      split <;> rfl
  refuse target := .result (.error (.invalidTarget target))
  apply op l r := .result (op.apply l r)
  close params body env := .step (fun _ _ => rfl) fun _ => rfl

end Rules

-- ----------------------------------------------------------------------------
-- Evaluation
-- ----------------------------------------------------------------------------

section Evaluation

variable {call : Caller}

theorem evalNode_appends (hCall : ∀ f args, Appends (call f args)) (env : FrameId) (n : Node) :
    Appends (evalNode call env n) :=
  @Pairing.node (fun x _ => Appends x) call call env appends_pairing hCall n

/-- **Scripts append**, whatever they do, if the calls they make do. -/
theorem runScript_appends (hCall : ∀ f args, Appends (call f args)) (s : Script) :
    Appends (runScript call s) := by
  induction s with
  | done r =>
    rw [runScript]
    exact .result r
  | call f args next ih =>
    rw [runScript]
    intro bytes w hw
    obtain ⟨hRun, hQuota⟩ := hCall f args bytes w hw
    simp only [EvalM.runIn_ofStep, hRun]
    exact ih _ bytes _ hQuota
  | write text next ih =>
    rw [runScript]
    exact (write_appends text).bind fun _ => ih
  | clock next ih =>
    rw [runScript]
    exact Appends.bind (.step (fun _ _ => rfl) fun _ => rfl) fun now => ih now

theorem callWithin_appends (limit remaining : Nat) (f : Value) (args : List Value) :
    Appends (callWithin limit remaining f args) := by
  induction remaining generalizing f args with
  | zero =>
    rw [callWithin]
    exact .result _
  | succ remaining ih =>
    cases f with
    | closure c =>
      rw [callWithin]
      refine Appends.bind (.step (fun _ _ => rfl) fun _ => rfl) fun scope => ?_
      exact evalNode_appends ih scope c.body
    | native n =>
      rw [callWithin]
      intro bytes w hw
      have hNatives : (w.behind bytes).natives = w.natives := rfl
      simp only [EvalM.runIn_ofStep, hNatives]
      split
      · exact runScript_appends ih _ bytes w hw
      · exact ⟨rfl, hw⟩
    | number | string | boolean =>
      rw [callWithin_refused limit _ rfl]
      exact .result _

theorem evaluate_appends (config : Config) (env : FrameId) (n : Node) :
    Appends (evaluate config env n) :=
  evalNode_appends (callWithin_appends _ _) env n

end Evaluation

/-- **A run appends its output** to what was written before, and depends on nothing of that. -/
theorem World.run_behind {w : World} (h : w.sink.quota = none) (bytes : Array UInt8)
    (config : Config) (env : FrameId) (source : String) :
    (w.behind bytes).run config env source =
        ((w.run config env source).1, (w.run config env source).2.behind bytes) ∧
      (w.run config env source).2.sink.quota = none := by
  unfold World.run
  split
  · exact ⟨rfl, h⟩
  · rename_i program hParse
    obtain ⟨hRun, hQuota⟩ := evaluate_appends config env program bytes w h
    simp only [World.evaluate, hRun, true_and]
    exact hQuota

end Zaban
