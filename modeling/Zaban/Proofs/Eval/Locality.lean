import Zaban.Eval.Natives
import Zaban.Proofs.Eval.Lockstep

/-!
# Evaluation is local to what is reachable

A frame **reaches** the frame around it and the frames that the closures bound
in it have captured. What an evaluation can see and change are the frames
reachable from its inputs, and those it adds itself:

* frames that are not reachable stay as they are;
* nothing becomes reachable that was not, but for new frames;
* frames that are not reachable do not matter to the value, the error or the
  output.

The three follow from one fact about a fixed set `S` of frames that is closed
under reaching and holds all frames yet to come (`Twins`): two runs from
stores that agree on `S` are in lockstep, and neither leaves `S`. The set of
the reachable frames together with those yet to come is such a set, and it
need not change while the evaluation runs, although reachability does.

Native functions are part of this as long as they hold no values of their own
(`Captureless`): what a script calls and ends with is made from its arguments
and from what its calls gave it.
-/

namespace Zaban

-- ----------------------------------------------------------------------------
-- Reachability
-- ----------------------------------------------------------------------------

/-- The value is a closure over the frame `e`. -/
def Value.Captures (v : Value) (e : FrameId) : Prop :=
  ∃ c, v = .closure c ∧ c.env = e

/-- The frames that the value captures lie in `S`. -/
def Value.StaysIn (S : FrameId → Prop) (v : Value) : Prop :=
  ∀ e, v.Captures e → S e

/-- What an evaluation ended with captures the frame `e`, also when an error speaks of a value. -/
def Captured (result : Except EvalError Value) (e : FrameId) : Prop :=
  match result with
  | .ok v => v.Captures e
  | .error (.typeMismatch _ v) => v.Captures e
  | .error (.notCallable v) => v.Captures e
  | .error _ => False

namespace Store

/-- The frame `e` leads to another: to the one around it, or to one that a closure bound in `e` has
captured. -/
inductive Link (s : Store) (e : FrameId) : FrameId → Prop where
  | outer {f : Frame} {o : FrameId} (hFrame : s.frame? e = some f) (hOuter : f.outer = some o) :
      Link s e o
  | captured {f : Frame} {x : String} {v : Value} {d : FrameId} (hFrame : s.frame? e = some f)
      (hBound : (x, v) ∈ f.bindings) (hCaptures : v.Captures d) : Link s e d

/-- The frames to which links lead from those that `start` names. -/
inductive Reachable (s : Store) (start : FrameId → Prop) : FrameId → Prop where
  | start {e : FrameId} (hStart : start e) : Reachable s start e
  | link {e d : FrameId} (hReach : Reachable s start e) (hLink : s.Link e d) :
      Reachable s start d

end Store

/-- The native function holds no values of its own: where its arguments stay in a set of frames, so
does everything it calls and ends with. -/
def Captureless (body : NativeBody) : Prop :=
  ∀ (S : FrameId → Prop) (args : List Value), (∀ a ∈ args, a.StaysIn S) →
    (body args).Handles (Value.StaysIn S)

-- ----------------------------------------------------------------------------
-- Stores that agree on a closed set
-- ----------------------------------------------------------------------------

/-- The stores agree on the frames of `S`, among which are all frames yet to come, and no link leads
out of `S`. -/
structure Twins (S : FrameId → Prop) (s₁ s₂ : Store) : Prop where
  next  : s₁.next = s₂.next
  fresh : ∀ {e}, s₁.next ≤ e → S e
  agree : ∀ {e}, S e → s₁.frame? e = s₂.frame? e
  outer : ∀ {e f o}, S e → s₁.frame? e = some f → f.outer = some o → S o
  bound : ∀ {e f x v}, S e → s₁.frame? e = some f → (x, v) ∈ f.bindings → v.StaysIn S

section Stores

variable {S : FrameId → Prop} {s₁ s₂ : Store}

/-- The walk outward from a frame of `S` finds the same frame in both stores, and it lies in `S`. -/
theorem Twins.binderFrom (h : Twins S s₁ s₂) (name : String) (fuel : Nat) {e : FrameId}
    (he : S e) : s₁.binderFrom name fuel e = s₂.binderFrom name fuel e ∧
      ∀ b, s₁.binderFrom name fuel e = some b → S b := by
  induction fuel generalizing e with
  | zero => exact ⟨rfl, by rintro _ ⟨⟩⟩
  | succ fuel ih =>
    rw [Store.binderFrom, Store.binderFrom, ← h.agree he]
    cases hFrame : s₁.frame? e with
    | none => exact ⟨rfl, by rintro _ ⟨⟩⟩
    | some f =>
      by_cases hBinds : f.binds name = true
      · simp only [hBinds, if_true, true_and]
        intro b hb
        exact Option.some.inj hb ▸ he
      · simp only [hBinds]
        cases hOuter : f.outer with
        | none => exact ⟨rfl, by rintro _ ⟨⟩⟩
        | some o => exact ih (h.outer he hFrame hOuter)

theorem Twins.binder? (h : Twins S s₁ s₂) (name : String) {e : FrameId} (he : S e) :
    s₁.binder? e name = s₂.binder? e name ∧ ∀ b, s₁.binder? e name = some b → S b :=
  h.binderFrom name (e + 1) he

/-- A name has the same value in both stores, and the value stays in `S`. -/
theorem Twins.get? (h : Twins S s₁ s₂) (name : String) {e : FrameId} (he : S e) :
    s₁.get? e name = s₂.get? e name ∧ ∀ v, s₁.get? e name = some v → v.StaysIn S := by
  obtain ⟨hSame, hStays⟩ := h.binder? name he
  unfold Store.get?
  rw [← hSame]
  cases hBinder : s₁.binder? e name with
  | none => exact ⟨rfl, by rintro _ ⟨⟩⟩
  | some b =>
    have hb := hStays b hBinder
    simp only [Option.bind_some, ← h.agree hb, true_and]
    cases hFrame : s₁.frame? b with
    | none => rintro _ ⟨⟩
    | some f => exact fun v hv => h.bound hb hFrame (Frame.mem_of_lookup hv)

/-- An assignment has the same target in both stores, and it lies in `S`. -/
theorem Twins.target? (h : Twins S s₁ s₂) (name : String) {e : FrameId} (he : S e) :
    s₁.target? e name = s₂.target? e name ∧ ∀ t, s₁.target? e name = some t → S t := by
  obtain ⟨hSame, hStays⟩ := h.binder? name he
  have hRoot : s₁.isRoot e = s₂.isRoot e := by
    unfold Store.isRoot Store.outer?
    rw [h.agree he]
  unfold Store.target?
  rw [← hSame, ← hRoot]
  refine ⟨rfl, ?_⟩
  intro t ht
  rcases Option.or_eq_some_iff.mp ht with hBinder | ⟨-, hSelf⟩
  · exact hStays t hBinder
  · split at hSelf
    · exact Option.some.inj hSelf ▸ he
    · cases hSelf

theorem Twins.define (h : Twins S s₁ s₂) {e : FrameId} (name : String) {v : Value}
    (hv : v.StaysIn S) : Twins S (s₁.define e name v) (s₂.define e name v) := by
  -- a changed frame is an old one with one value more
  have hOld : ∀ {d f}, (s₁.define e name v).frame? d = some f →
      ∃ g, s₁.frame? d = some g ∧ f.outer = g.outer ∧
        ∀ x u, (x, u) ∈ f.bindings → u = v ∨ (x, u) ∈ g.bindings := by
    intro d f hFrame
    rw [Store.frame?_define] at hFrame
    split at hFrame
    · obtain ⟨g, hg, rfl⟩ := Option.map_eq_some_iff.mp hFrame
      exact ⟨g, hg, rfl, fun x u hx => Frame.mem_bind hx⟩
    · exact ⟨f, hFrame, rfl, fun x u hx => Or.inr hx⟩
  constructor
  · rw [Store.next_define, Store.next_define, h.next]
  · intro d hd
    rw [Store.next_define] at hd
    exact h.fresh hd
  · intro d hd
    rw [Store.frame?_define, Store.frame?_define, h.agree hd]
  · intro d f o hd hFrame hOuter
    obtain ⟨g, hg, hSame, -⟩ := hOld hFrame
    exact h.outer hd hg (hSame ▸ hOuter)
  · intro d f x u hd hFrame hBound
    obtain ⟨g, hg, -, hBindings⟩ := hOld hFrame
    rcases hBindings x u hBound with rfl | hOldBound
    · exact hv
    · exact h.bound hd hg hOldBound

theorem Twins.add (h : Twins S s₁ s₂) {f : Frame} (hOuter : ∀ o, f.outer = some o → S o)
    (hBound : ∀ x v, (x, v) ∈ f.bindings → v.StaysIn S) : Twins S (s₁.add f) (s₂.add f) := by
  constructor
  · rw [Store.next_add, Store.next_add, h.next]
  · intro d hd
    rw [Store.next_add] at hd
    exact h.fresh (Nat.le_of_succ_le hd)
  · intro d hd
    rw [Store.frame?_add, Store.frame?_add, h.agree hd, h.next]
  · intro d g o hd hFrame hOut
    rw [Store.frame?_add] at hFrame
    split at hFrame
    · exact hOuter o (Option.some.inj hFrame ▸ hOut)
    · exact h.outer hd hFrame hOut
  · intro d g x v hd hFrame hIn
    rw [Store.frame?_add] at hFrame
    split at hFrame
    · exact hBound x v (Option.some.inj hFrame ▸ hIn)
    · exact h.bound hd hFrame hIn

end Stores

-- ----------------------------------------------------------------------------
-- Worlds that agree on a closed set
-- ----------------------------------------------------------------------------

/-- The stores agree on `S` and the worlds on all else, and since `s₁` and `s₂` neither store has
changed outside `S`. -/
structure Alike (S : FrameId → Prop) (s₁ s₂ : Store) (w₁ w₂ : World) : Prop where
  stores      : Twins S w₁.store w₂.store
  closures    : w₁.nextClosure = w₂.nextClosure
  natives     : w₁.natives = w₂.natives
  captureless : ∀ body ∈ w₁.natives, Captureless body
  sink        : w₁.sink = w₂.sink
  clock       : w₁.clock = w₂.clock
  ticks       : w₁.ticks = w₂.ticks
  left        : ∀ {e}, ¬ S e → w₁.store.frame? e = s₁.frame? e
  right       : ∀ {e}, ¬ S e → w₂.store.frame? e = s₂.frame? e

section Moves

variable {S : FrameId → Prop} {s₁ s₂ : Store} {w₁ w₂ : World}

theorem staysIn_of_ne_closure {v : Value} (h : ∀ c, v ≠ .closure c) : v.StaysIn S := by
  rintro e ⟨c, rfl, -⟩
  exact absurd rfl (h c)

/-- A frame of `S` may be changed in both worlds at once. -/
theorem Alike.define (h : Alike S s₁ s₂ w₁ w₂) {e : FrameId} (he : S e) (name : String)
    {v : Value} (hv : v.StaysIn S) : Alike S s₁ s₂ (w₁.define e name v) (w₂.define e name v) := by
  have hOther : ∀ (s : Store) {d}, ¬ S d → (s.define e name v).frame? d = s.frame? d := by
    intro s d hd
    rw [Store.frame?_define, if_neg]
    rintro rfl
    exact hd he
  exact { h with
    stores := h.stores.define name hv
    left := fun hd => (hOther _ hd).trans (h.left hd)
    right := fun hd => (hOther _ hd).trans (h.right hd) }

/-- A frame that links into `S` may be added to both worlds at once. -/
theorem Alike.add (h : Alike S s₁ s₂ w₁ w₂) {f : Frame} (hOuter : ∀ o, f.outer = some o → S o)
    (hBound : ∀ x v, (x, v) ∈ f.bindings → v.StaysIn S) :
    Alike S s₁ s₂ (w₁.addFrame f).2 (w₂.addFrame f).2 := by
  have hOther : ∀ (s : Store) {d}, S s.next → ¬ S d → (s.add f).frame? d = s.frame? d := by
    intro s d hs hd
    rw [Store.frame?_add, if_neg]
    rintro rfl
    exact hd hs
  have hNew : S w₁.store.next := h.stores.fresh (Nat.le_refl _)
  exact { h with
    stores := h.stores.add hOuter hBound
    left := fun hd => (hOther _ hNew hd).trans (h.left hd)
    right := fun hd => (hOther _ (h.stores.next ▸ hNew) hd).trans (h.right hd) }

/-- The moves of an evaluation inside `S` are in lockstep. -/
theorem alike_moves (S : FrameId → Prop) (s₁ s₂ : Store) :
    Moves (Alike S s₁ s₂) S (Value.StaysIn S) where
  plain v h := staysIn_of_ne_closure h
  look {e name} he := by
    intro w₁ w₂ h
    obtain ⟨hSame, hStays⟩ := h.stores.get? name he
    simp only [EvalM.runIn_ofStep, ← hSame]
    cases hValue : w₁.store.get? e name with
    | none => exact ⟨rfl, h, trivial⟩
    | some v => exact ⟨rfl, h, hStays v hValue⟩
  assign {e name v} he hv := by
    intro w₁ w₂ h
    obtain ⟨hSame, hStays⟩ := h.stores.target? name he
    simp only [EvalM.runIn_ofStep, World.assign, ← hSame]
    cases hTarget : w₁.store.target? e name with
    | none => exact ⟨rfl, h, trivial⟩
    | some t => exact ⟨rfl, h.define (hStays t hTarget) name hv, hv⟩
  close {e params body} he := by
    intro w₁ w₂ h
    simp only [EvalM.runIn_ofStep, World.close, h.closures, true_and]
    refine ⟨{ h with closures := rfl }, ?_⟩
    rintro d ⟨c, hEq, rfl⟩
    obtain rfl := Value.closure.inj hEq
    exact he
  enter {c args} hc hArgs := by
    intro w₁ w₂ h
    have hSame : w₁.store.next = w₂.store.next := h.stores.next
    refine ⟨congrArg Except.ok hSame, ?_, h.stores.fresh (Nat.le_refl _)⟩
    refine h.add ?_ ?_
    · intro o ho
      exact Option.some.inj ho ▸ hc c.env ⟨c, rfl, rfl⟩
    · intro x v hv
      rcases mem_bindParams hv with hArg | rfl | hNone
      · exact hArgs v hArg
      · exact staysIn_of_ne_closure (by rintro _ ⟨⟩)
      · cases hNone
  write {text} := by
    intro w₁ w₂ h
    simp only [EvalM.runIn_ofStep, World.write, h.sink]
    cases (w₂.sink.write text).1 with
    | none => exact ⟨rfl, { h with sink := rfl }, trivial⟩
    | some reason => exact ⟨rfl, { h with sink := rfl }, trivial⟩
  clock := by
    intro w₁ w₂ h
    simp only [EvalM.runIn_ofStep, World.readClock, h.clock, h.ticks, true_and]
    exact ⟨{ h with clock := rfl, ticks := rfl }, trivial⟩
  natives h := h.natives
  handles h hBody hArgs := h.captureless _ (Array.mem_of_getElem? hBody) S _ hArgs

end Moves

-- ----------------------------------------------------------------------------
-- What an evaluation can see
-- ----------------------------------------------------------------------------

/-- The worlds agree on the frames that the first one reaches from `start`, and on all that is not a
frame. -/
structure SameView (start : FrameId → Prop) (w₁ w₂ : World) : Prop where
  next     : w₁.store.next = w₂.store.next
  agree    : ∀ {e}, w₁.store.Reachable start e → w₁.store.frame? e = w₂.store.frame? e
  closures : w₁.nextClosure = w₂.nextClosure
  natives  : w₁.natives = w₂.natives
  sink     : w₁.sink = w₂.sink
  clock    : w₁.clock = w₂.clock
  ticks    : w₁.ticks = w₂.ticks

/-- The computation, run in `w`, neither sees nor changes more than `start` reaches. -/
structure Local (start : FrameId → Prop) (x : EvalM Value) (w : World) : Prop where
  /-- A frame that is not reachable stays as it is, however the run ends. -/
  untouched : ∀ e f, w.store.frame? e = some f → ¬ w.store.Reachable start e →
    (x.runIn w).2.store.frame? e = some f
  /-- What is reachable afterwards was reachable before, or was not there. -/
  enclosed : ∀ e f, (x.runIn w).2.store.frame? e = some f →
    (x.runIn w).2.store.Reachable (fun d => start d ∨ Captured (x.runIn w).1 d) e →
    w.store.Reachable start e ∨ w.store.frame? e = none
  /-- A world that looks the same from `start` gives the same result and looks the same again. -/
  determined : ∀ w', SameView start w w' → (x.runIn w').1 = (x.runIn w).1 ∧
    SameView (fun d => start d ∨ Captured (x.runIn w).1 d) (x.runIn w).2 (x.runIn w').2

/-- The frames that `start` reaches, and those yet to come. -/
def Scope (s : Store) (start : FrameId → Prop) (e : FrameId) : Prop :=
  s.Reachable start e ∨ s.next ≤ e

section Views

variable {S start : FrameId → Prop} {s : Store} {e : FrameId} {w w₁ w₂ : World}

theorem Scope.reachable (h : Scope s start e) {f : Frame} (hFrame : s.frame? e = some f) :
    s.Reachable start e := by
  rcases h with hReach | hNew
  · exact hReach
  · rw [Store.frame?_eq_none_iff.mpr hNew] at hFrame
    cases hFrame

theorem SameView.refl (start : FrameId → Prop) (w : World) : SameView start w w :=
  ⟨rfl, fun _ => rfl, rfl, rfl, rfl, rfl, rfl⟩

theorem SameView.twins (h : SameView start w₁ w₂) :
    Twins (Scope w₁.store start) w₁.store w₂.store := by
  constructor
  · exact h.next
  · intro e he
    exact Or.inr he
  · intro e he
    rcases he with hReach | hNew
    · exact h.agree hReach
    · rw [Store.frame?_eq_none_iff.mpr hNew, Store.frame?_eq_none_iff.mpr (h.next ▸ hNew)]
  · intro e f o he hFrame hOuter
    exact Or.inl (.link (he.reachable hFrame) (.outer hFrame hOuter))
  · intro e f x v he hFrame hBound d hd
    exact Or.inl (.link (he.reachable hFrame) (.captured hFrame hBound hd))

theorem SameView.alike (h : SameView start w₁ w₂)
    (hNatives : ∀ body ∈ w₁.natives, Captureless body) :
    Alike (Scope w₁.store start) w₁.store w₂.store w₁ w₂ where
  stores := h.twins
  closures := h.closures
  natives := h.natives
  captureless := hNatives
  sink := h.sink
  clock := h.clock
  ticks := h.ticks
  left _ := rfl
  right _ := rfl

/-- No walk along links leaves a closed set. -/
theorem Twins.reachable {s₁ s₂ : Store} (h : Twins S s₁ s₂) (hStart : ∀ e, start e → S e)
    {e : FrameId} (hReach : s₁.Reachable start e) : S e := by
  induction hReach with
  | start he => exact hStart _ he
  | link _ hLink ih =>
    cases hLink with
    | outer hFrame hOuter => exact h.outer ih hFrame hOuter
    | captured hFrame hBound hCaptures => exact h.bound ih hFrame hBound _ hCaptures

theorem captured_of_within {result : Except EvalError Value}
    (h : Within (Value.StaysIn S) (Value.StaysIn S) result) {e : FrameId}
    (he : Captured result e) : S e := by
  cases result with
  | ok v => exact h e he
  | error err =>
    cases err with
    | typeMismatch op v => exact h e he
    | notCallable v => exact h e he
    | undefinedVariable | invalidTarget | divisionByZero | callDepthExceeded | output => cases he

/-- A computation that is in lockstep on every closed set around `start` is local to `start`. -/
theorem local_of_lockstep {x : EvalM Value}
    (hLock : ∀ (S : FrameId → Prop) (s₁ s₂ : Store), (∀ e, start e → S e) →
      Lockstep (Alike S s₁ s₂) (Value.StaysIn S) (Value.StaysIn S) x)
    (hNatives : ∀ body ∈ w.natives, Captureless body) : Local start x w := by
  have hStart : ∀ e, start e → Scope w.store start e := fun e he => Or.inl (.start he)
  have hRuns : ∀ w', SameView start w w' → (x.runIn w).1 = (x.runIn w').1 ∧
      Alike (Scope w.store start) w.store w'.store (x.runIn w).2 (x.runIn w').2 ∧
      ∀ {e}, (x.runIn w).2.store.Reachable (fun d => start d ∨ Captured (x.runIn w).1 d) e →
        Scope w.store start e := by
    intro w' hView
    obtain ⟨hSame, hAlike, hWithin⟩ :=
      hLock _ w.store w'.store hStart w w' (hView.alike hNatives)
    refine ⟨hSame, hAlike, ?_⟩
    intro e hReach
    refine hAlike.stores.reachable ?_ hReach
    rintro d (hd | hd)
    · exact hStart d hd
    · exact captured_of_within hWithin hd
  obtain ⟨-, hAlike, hInside⟩ := hRuns w (.refl start w)
  constructor
  · intro e f hFrame hFar
    have hOutside : ¬ Scope w.store start e := fun h => hFar (h.reachable hFrame)
    rw [hAlike.left hOutside, hFrame]
  · intro e f _ hReach
    exact (hInside hReach).imp_right Store.frame?_eq_none_iff.mpr
  · intro w' hView
    obtain ⟨hSame, hAfter, hScope⟩ := hRuns w' hView
    refine ⟨hSame.symm, ?_⟩
    exact ⟨hAfter.stores.next, fun hReach => hAfter.stores.agree (hScope hReach), hAfter.closures,
      hAfter.natives, hAfter.sink, hAfter.clock, hAfter.ticks⟩

end Views

-- ----------------------------------------------------------------------------
-- Locality
-- ----------------------------------------------------------------------------

/-- The frames that a function or one of its arguments captures. -/
def Given (f : Value) (args : List Value) (e : FrameId) : Prop :=
  f.Captures e ∨ ∃ a ∈ args, a.Captures e

section Evaluation

variable {w : World} (limit remaining : Nat)

theorem evalNode_local (hNatives : ∀ body ∈ w.natives, Captureless body) (env : FrameId)
    (n : Node) : Local (· = env) (evalNode (callWithin limit remaining) env n) w := by
  refine local_of_lockstep ?_ hNatives
  intro S s₁ s₂ hStart
  have hMoves := alike_moves S s₁ s₂
  exact evalNode_lockstep hMoves (callWithin_lockstep hMoves limit remaining) (hStart env rfl) n

theorem callWithin_local (hNatives : ∀ body ∈ w.natives, Captureless body) (f : Value)
    (args : List Value) : Local (Given f args) (callWithin limit remaining f args) w := by
  refine local_of_lockstep ?_ hNatives
  intro S s₁ s₂ hStart
  refine callWithin_lockstep (alike_moves S s₁ s₂) limit remaining f args ?_ ?_
  · intro e he
    exact hStart e (Or.inl he)
  · intro a ha e he
    exact hStart e (Or.inr ⟨a, ha, he⟩)

/-- A frame out of reach is left alone by a run and is still out of reach after it. -/
theorem Local.apart {start : FrameId → Prop} {x : EvalM Value} (h : Local start x w) {e : FrameId}
    {f : Frame} (hFrame : w.store.frame? e = some f) (hFar : ¬ w.store.Reachable start e) :
    (x.runIn w).2.store.frame? e = some f ∧
      ¬ (x.runIn w).2.store.Reachable (fun d => start d ∨ Captured (x.runIn w).1 d) e := by
  have hSame := h.untouched e f hFrame hFar
  refine ⟨hSame, ?_⟩
  intro hReach
  rcases h.enclosed e f hSame hReach with hNear | hNone
  · exact hFar hNear
  · rw [hFrame] at hNone
    cases hNone

/-- **Evaluation is local to what is reachable.** An expression neither sees nor changes more than
its frame reaches, and a call no more than the function and its arguments reach. A call of the
closure `c` leaves the frame of the closure `d` alone while it cannot reach it, and what the call
gives cannot reach it either. -/
theorem evaluation_is_local (hNatives : ∀ body ∈ w.natives, Captureless body) :
    (∀ env n, Local (· = env) (evalNode (callWithin limit remaining) env n) w) ∧
    (∀ f args, Local (Given f args) (callWithin limit remaining f args) w) ∧
    (∀ (c d : Closure) (args : List Value) (f : Frame), w.store.frame? d.env = some f →
      ¬ w.store.Reachable (Given (.closure c) args) d.env →
      let after := (callWithin limit remaining (.closure c) args).runIn w
      after.2.store.frame? d.env = some f ∧
        ¬ after.2.store.Reachable
          (fun e => Given (.closure c) args e ∨ Captured after.1 e) d.env) := by
  refine ⟨evalNode_local limit remaining hNatives, callWithin_local limit remaining hNatives, ?_⟩
  intro c d args f hFrame hFar
  exact (callWithin_local limit remaining hNatives (.closure c) args).apart hFrame hFar

end Evaluation

theorem firstArg_staysIn {S : FrameId → Prop} {args : List Value}
    (h : ∀ a ∈ args, a.StaysIn S) : (Script.firstArg args).StaysIn S := by
  cases args with
  | nil => exact staysIn_of_ne_closure (by rintro _ ⟨⟩)
  | cons a as => exact h a List.mem_cons_self

theorem wan_captureless : Captureless Script.wan := by
  intro S args _
  exact .write (.done (staysIn_of_ne_closure (by rintro _ ⟨⟩)))

theorem time_captureless : Captureless Script.time := by
  intro S args hArgs
  refine .clock fun started => .call (firstArg_staysIn hArgs) (List.forall_mem_nil _) ?_
  intro result hResult
  exact .clock fun ended => .write (.done hResult)

/-- A world with two roots, the first of which has the standard functions. -/
def twoRoots : World :=
  ((World.empty (.ofQuota none) fun _ => 0).addRoot.2.addRoot.2).installStandard 0

theorem twoRoots_captureless : ∀ body ∈ twoRoots.natives, Captureless body := by
  intro body hBody
  have hOne : body = Script.wan ∨ body = Script.time := by
    simpa [twoRoots, World.installStandard, World.install, World.addNative, World.define,
      World.addRoot, World.addFrame, World.empty] using hBody
  rcases hOne with rfl | rfl
  · exact wan_captureless
  · exact time_captureless

theorem twoRoots_apart : ¬ twoRoots.store.Reachable (· = 0) 1 := by
  have hStay : ∀ e, twoRoots.store.Reachable (· = 0) e → e = 0 := by
    intro e hReach
    induction hReach with
    | start he => exact he
    | link _ hLink ih =>
      subst ih
      -- the first root binds nothing but native functions
      cases hLink with
      | outer hFrame hOuter =>
        obtain rfl := Option.some.inj hFrame
        cases hOuter
      | captured hFrame hBound hCaptures =>
        obtain rfl := Option.some.inj hFrame
        obtain ⟨c, rfl, -⟩ := hCaptures
        rcases List.mem_cons.mp hBound with hWan | hRest
        · cases hWan
        · rcases List.mem_singleton.mp hRest with hTime
          cases hTime
  intro hReach
  cases hStay 1 hReach

/-- No program run in the first root touches the second. -/
theorem evaluation_is_local_twoRoots :
    (∀ body ∈ twoRoots.natives, Captureless body) ∧ ∀ n,
      ((evalNode (callWithin 9 9) 0 n).runIn twoRoots).2.store.frame? 1 = some ⟨[], none⟩ :=
  ⟨twoRoots_captureless, fun n =>
    ((evaluation_is_local 9 9 twoRoots_captureless).1 0 n).untouched 1 _ rfl twoRoots_apart⟩

end Zaban
