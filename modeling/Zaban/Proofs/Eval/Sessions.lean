import Zaban.Proofs.Eval.Addressing
import Zaban.Proofs.Eval.Watched

/-!
# Sessions

What a session can do to the forest of frames is

* add frames, of the host and of calls;
* add a name to a frame of the host, or, by an assignment, to the root in which
  the assignment is evaluated.

Nothing else changes but values. The frame of a call binds the parameters of
its closure, all of them before the body is run and no other name ever.

`Recounts` relates a computation of the evaluator and the watched one, and says
what the moments that were noted tell about the frames. As in lexical
addressing, one lemma for expressions (`evalNode_recounts`) and one for calls
(`callWithin_recounts`) carry the invariant through whole evaluations. The
operations of a host keep it one by one (`perform_formed`), so every session
does (`after_formed`).
-/

namespace Zaban

-- ----------------------------------------------------------------------------
-- Well-formed histories
-- ----------------------------------------------------------------------------

/-- If a closure was entered at this moment, the frame of the call is there, hangs from the frame of
the closure, and binds exactly the parameters. -/
def Moment.HoldsIn (k : Moment) (s : Store) : Prop :=
  ∀ scope c, k.what = .entered scope c → scope < s.next ∧ s.outer? scope = some c.env ∧
    ∀ x, s.bindsAt scope x = true ↔ x ∈ c.params

/-- The world is well formed, and the frame of every call is as it was when the closure was entered:
at that moment, at every later one, and now. -/
structure Watch.Formed (m : Watch) : Prop where
  world   : m.world.Formed
  entered : ∀ k ∈ m.history, k.HoldsIn k.store
  since   : m.history.Pairwise fun later earlier => earlier.HoldsIn later.store
  now     : ∀ k ∈ m.history, k.HoldsIn m.world.store

theorem Moment.HoldsIn.mono {k : Moment} {s t : Store} {new : FrameId → String → Prop}
    (h : k.HoldsIn s) (hExtends : s.Extends new t)
    (hCall : ∀ e c x, k.what = .entered e c → ¬ new e x) : k.HoldsIn t := by
  intro scope c hWhat
  obtain ⟨hScope, hOuter, hNames⟩ := h scope c hWhat
  refine ⟨Nat.lt_of_lt_of_le hScope hExtends.next, ?_, ?_⟩
  · rw [hExtends.outer scope hScope, hOuter]
  · intro x
    rw [← hNames x]
    refine ⟨?_, hExtends.names scope x⟩
    intro hBinds
    exact (hExtends.fresh scope x hScope hBinds).resolve_right (hCall scope c x hWhat)

/-- **One step keeps a history well formed**, if it adds no name to the frame of a call. -/
theorem Watch.Formed.note {m : Watch} (h : m.Formed) {w : World} {what : Happening}
    {new : FrameId → String → Prop} (hWorld : w.Formed)
    (hExtends : m.world.store.Extends new w.store) (hCalls : ∀ e x, m.Called e → ¬ new e x)
    (hNoted : Moment.HoldsIn ⟨what, w.store⟩ w.store) : (m.note what w).Formed := by
  have hKept : ∀ k ∈ m.history, k.HoldsIn w.store := by
    intro k hk
    refine (h.now k hk).mono hExtends ?_
    intro e c x hWhat
    exact hCalls e x ⟨k, hk, c, hWhat⟩
  constructor
  · exact hWorld
  · exact List.forall_mem_cons.mpr ⟨hNoted, h.entered⟩
  · exact List.pairwise_cons.mpr ⟨hKept, h.since⟩
  · exact List.forall_mem_cons.mpr ⟨hNoted, hKept⟩

/-- The frame of a call is not a root. -/
theorem Watch.Formed.not_isRoot {m : Watch} (h : m.Formed) {e : FrameId} (he : m.Called e) :
    m.world.store.isRoot e = false := by
  obtain ⟨k, hk, c, hWhat⟩ := he
  obtain ⟨-, hOuter, -⟩ := h.now k hk e c hWhat
  unfold Store.isRoot
  rw [hOuter]
  rfl

/-- So no assignment, wherever it is evaluated, adds a name to the frame of a call. -/
theorem Watch.Formed.not_assigned {m : Watch} (h : m.Formed) (env : FrameId) (name : String) :
    ∀ e x, m.Called e → ¬ (e = env ∧ x = name ∧ m.world.store.isRoot env = true) := by
  rintro e x hCalled ⟨rfl, -, hRoot⟩
  rw [h.not_isRoot hCalled] at hRoot
  cases hRoot

-- ----------------------------------------------------------------------------
-- What an evaluation does to the forest
-- ----------------------------------------------------------------------------

/-- From `m` an evaluation has led to `m'`, by way of the moments `new`. A name is new only in a
root, and only by an assignment evaluated there. Assignments are evaluated in frames that `places`
names or in such that are not roots, and a frame that is new is that of a call. -/
structure Watch.Leads (places : FrameId → Prop) (m m' : Watch) (new : List Moment) : Prop where
  history  : m'.history = new ++ m.history
  store    : m.world.store.Extends (fun e x =>
    m.world.store.isRoot e = true ∧ ∃ k ∈ new, k.what = .assigned e x) m'.world.store
  assigned : ∀ k ∈ new, ∀ e x, k.what = .assigned e x →
    places e ∨ m'.world.store.isRoot e = false
  entered  : ∀ e, m.world.store.next ≤ e → e < m'.world.store.next →
    ∃ k ∈ new, ∃ c, k.what = .entered e c

section Leads

variable {places : FrameId → Prop} {m m' m'' : Watch} {new new' : List Moment}

/-- Nothing has happened to the frames. -/
theorem Watch.Leads.same {w : World} (hStore : w.store = m.world.store) :
    m.Leads places { m with world := w } [] where
  history := rfl
  store := hStore ▸ .refl _
  assigned := by rintro k ⟨⟩
  entered e hOld hNew := by
    rw [hStore] at hNew
    exact absurd hNew (Nat.not_lt.mpr hOld)

/-- One noted step. -/
theorem Watch.Leads.noted {what : Happening} {w : World} {fresh : FrameId → String → Prop}
    (hExtends : m.world.store.Extends fresh w.store)
    (hFresh : ∀ e x, fresh e x → m.world.store.isRoot e = true ∧ what = .assigned e x)
    (hAssigned : ∀ e x, what = .assigned e x → places e)
    (hEntered : ∀ e, m.world.store.next ≤ e → e < w.store.next → ∃ c, what = .entered e c) :
    m.Leads places (m.note what w) [⟨what, w.store⟩] where
  history := rfl
  store := by
    refine hExtends.mono fun e x _ hNew => ?_
    obtain ⟨hRoot, hWhat⟩ := hFresh e x hNew
    exact ⟨hRoot, _, List.mem_singleton_self _, hWhat⟩
  assigned k hk e x hWhat := by
    obtain rfl := List.mem_singleton.mp hk
    exact Or.inl (hAssigned e x hWhat)
  entered e hOld hNew := ⟨_, List.mem_singleton_self _, hEntered e hOld hNew⟩

theorem Watch.Leads.trans (h : m.Leads places m' new) (h' : m'.Leads places m'' new') :
    m.Leads places m'' (new' ++ new) where
  history := by rw [h'.history, h.history, List.append_assoc]
  store := by
    refine h.store.trans h'.store ?_ ?_
    · rintro e x - ⟨hRoot, k, hk, hWhat⟩
      exact ⟨hRoot, k, List.mem_append_right _ hk, hWhat⟩
    · rintro e x he ⟨hRoot, k, hk, hWhat⟩
      exact ⟨h.store.isRoot he ▸ hRoot, k, List.mem_append_left _ hk, hWhat⟩
  assigned k hk e x hWhat := by
    rcases List.mem_append.mp hk with hLate | hEarly
    · exact h'.assigned k hLate e x hWhat
    · exact (h.assigned k hEarly e x hWhat).imp_right h'.store.not_isRoot
  entered e hOld hNew := by
    by_cases he : e < m'.world.store.next
    · obtain ⟨k, hk, hWhat⟩ := h.entered e hOld he
      exact ⟨k, List.mem_append_right _ hk, hWhat⟩
    · obtain ⟨k, hk, hWhat⟩ := h'.entered e (Nat.le_of_not_lt he) hNew
      exact ⟨k, List.mem_append_left _ hk, hWhat⟩

/-- Places that are not roots need not be named. -/
theorem Watch.Leads.weaken {places' : FrameId → Prop} (h : m.Leads places m' new)
    (hPlaces : ∀ e, places e → places' e ∨ m.world.store.isRoot e = false) :
    m.Leads places' m' new where
  history := h.history
  store := h.store
  assigned k hk e x hWhat := by
    rcases h.assigned k hk e x hWhat with hPlace | hInner
    · exact (hPlaces e hPlace).imp_right h.store.not_isRoot
    · exact Or.inr hInner
  entered := h.entered

/-- A root that has a new name is one of the places. -/
theorem Watch.Leads.gained (h : m.Leads places m' new) :
    m.world.store.Extends (fun e x => places e ∧ m.world.store.isRoot e = true ∧
      ∃ k ∈ new, k.what = .assigned e x) m'.world.store := by
  refine h.store.mono ?_
  rintro e x he ⟨hRoot, k, hk, hWhat⟩
  refine ⟨?_, hRoot, k, hk, hWhat⟩
  rcases h.assigned k hk e x hWhat with hPlace | hInner
  · exact hPlace
  · rw [h.store.isRoot he, hRoot] at hInner
    cases hInner

end Leads

-- ----------------------------------------------------------------------------
-- Watched computations
-- ----------------------------------------------------------------------------

/-- The watched computation, run from `m`, ends as the evaluator does in the world of `m` and in the
same world, well formed again. -/
def Recounts (places : FrameId → Prop) (m : Watch) {α : Type} (post : Store → α → Prop)
    (x : EvalM α) (y : WatchM α) : Prop :=
  ∃ r m' new, y.runIn m = (r, m') ∧ x.runIn m.world = (r, m'.world) ∧ m'.Formed ∧
    m.Leads places m' new ∧ ∀ a, r = .ok a → post m'.world.store a

section Rules

variable {places : FrameId → Prop} {m : Watch} {α β : Type} {post : Store → α → Prop}
  {post' : Store → β → Prop} {x : EvalM α} {y : WatchM α}

theorem Recounts.pure {a : α} (h : m.Formed) (hPost : post m.world.store a) :
    Recounts places m post (pure a) (pure a) :=
  ⟨.ok a, m, [], rfl, rfl, h, .same rfl, fun _ ha => Except.ok.inj ha ▸ hPost⟩

theorem Recounts.throw (h : m.Formed) (e : EvalError) :
    Recounts places m post (throw e) (throw e) :=
  ⟨.error e, m, [], rfl, rfl, h, .same rfl, by rintro _ ⟨⟩⟩

theorem Recounts.bind {f : α → EvalM β} {g : α → WatchM β} (hx : Recounts places m post x y)
    (hf : ∀ a m', m'.Formed → m.world.store.next ≤ m'.world.store.next →
      post m'.world.store a → Recounts places m' post' (f a) (g a)) :
    Recounts places m post' (x >>= f) (y >>= g) := by
  obtain ⟨r, m', new, hWatch, hWorld, hFormed, hLeads, hPost⟩ := hx
  unfold Recounts
  rw [EvalM.runIn_bind, WatchM.runIn_bind, hWatch, hWorld]
  cases r with
  | error e => exact ⟨.error e, m', new, rfl, rfl, hFormed, hLeads, by rintro _ ⟨⟩⟩
  | ok a =>
    obtain ⟨r', m'', new', hWatch', hWorld', hFormed', hLeads', hPost'⟩ :=
      hf a m' hFormed hLeads.store.next (hPost a rfl)
    exact ⟨r', m'', new' ++ new, hWatch', hWorld', hFormed', hLeads.trans hLeads', hPost'⟩

/-- A step that leaves the frames and the native functions as they are. -/
theorem Recounts.lift {r : Except EvalError α} {w : World} (h : m.Formed)
    (hRun : x.runIn m.world = (r, w)) (hStore : w.store = m.world.store)
    (hNatives : w.natives = m.world.natives)
    (hPost : ∀ a, r = .ok a → post m.world.store a) :
    Recounts places m post x (WatchM.lift x) := by
  have hWorld : w.Formed :=
    ⟨hStore ▸ h.world.older, hStore ▸ h.world.live, hNatives ▸ h.world.natives⟩
  have hFormed : Watch.Formed { m with world := w } :=
    ⟨hWorld, h.entered, h.since, hStore ▸ h.now⟩
  refine ⟨r, { m with world := w }, [], ?_, hRun, hFormed, .same hStore, ?_⟩
  · rw [WatchM.lift, WatchM.runIn_ofStep, hRun]
  · intro a ha
    exact hStore ▸ hPost a ha

/-- A step that is noted. -/
theorem Recounts.noting {r : Except EvalError α} {w : World} {what : Happening}
    (hRun : x.runIn m.world = (r, w)) (hFormed : (m.note what w).Formed)
    (hLeads : m.Leads places (m.note what w) [⟨what, w.store⟩])
    (hPost : ∀ a, r = .ok a → post w.store a) :
    Recounts places m post x (WatchM.noting what x) := by
  refine ⟨r, m.note what w, _, ?_, hRun, hFormed, hLeads, hPost⟩
  rw [WatchM.noting, WatchM.runIn_ofStep, hRun]

theorem Recounts.weaken {places' : FrameId → Prop} (hx : Recounts places m post x y)
    (hPlaces : ∀ e, places e → places' e ∨ m.world.store.isRoot e = false) :
    Recounts places' m post x y := by
  obtain ⟨r, m', new, hWatch, hWorld, hFormed, hLeads, hPost⟩ := hx
  exact ⟨r, m', new, hWatch, hWorld, hFormed, hLeads.weaken hPlaces, hPost⟩

end Rules

-- ----------------------------------------------------------------------------
-- Expressions
-- ----------------------------------------------------------------------------

/-- Watched calls recount the calls of the evaluator, and evaluate assignments in no root. -/
def CallsRecount (call : Caller) (call' : WatchedCaller) : Prop :=
  ∀ m f args, Watch.Formed m → f.Live m.world.store → (∀ a ∈ args, a.Live m.world.store) →
    Recounts (fun _ => False) m Value.Live (call f args) (call' f args)

section Expressions

variable {call : Caller} {call' : WatchedCaller} {env : FrameId} {m : Watch}

theorem look_recounts (h : m.Formed) (name : String) :
    Recounts (· = env) m Value.Live (evalNode call env (.var name))
      (watchNode call' env (.var name)) := by
  rw [evalNode, watchNode]
  cases hGet : m.world.store.get? env name with
  | none =>
    refine .lift (r := .error (.undefinedVariable name)) (w := m.world) h ?_ rfl rfl ?_
    · simp only [EvalM.runIn_ofStep, hGet]
    · rintro _ ⟨⟩
  | some v =>
    refine .lift (r := .ok v) (w := m.world) h ?_ rfl rfl ?_
    · simp only [EvalM.runIn_ofStep, hGet]
    · intro a ha
      exact Except.ok.inj ha ▸ h.world.get? hGet

/-- An assignment is noted with the frame in which it is evaluated. -/
theorem assign_recounts (h : m.Formed) (name : String) {v : Value} (hv : v.Live m.world.store) :
    Recounts (· = env) m Value.Live (EvalM.ofStep fun w => w.assign env name v)
      (.noting (.assigned env name) (EvalM.ofStep fun w => w.assign env name v)) := by
  have hExtends := assign_extends m.world env name v
  have hWorld := h.world.assign (e := env) name hv
  have hNext := next_assign m.world env name v
  have hValue := eq_of_assign_ok m.world env name v
  generalize hRun : m.world.assign env name v = after at hExtends hWorld hNext hValue
  have hFormed : (m.note (.assigned env name) after.2).Formed :=
    h.note hWorld hExtends (h.not_assigned env name) (by rintro scope c ⟨⟩)
  refine .noting (r := after.1) hRun hFormed ?_ ?_
  · refine .noted hExtends ?_ ?_ ?_
    · rintro e x ⟨rfl, rfl, hRoot⟩
      exact ⟨hRoot, rfl⟩
    · rintro e x ⟨⟩
      rfl
    · intro e hOld hNew
      rw [hNext] at hNew
      exact absurd hNew (Nat.not_lt.mpr hOld)
  · intro a ha
    rw [hValue a ha]
    exact hv.mono (Nat.le_of_eq hNext.symm)

-- The induction is on the expression, and the watch is arbitrary, since it has moved on when a part
-- of the expression is reached. All that the parts need to know of the frame is that it exists.
mutual

/-- **The watched evaluation of an expression recounts the evaluation.** -/
theorem evalNode_recounts (hCall : CallsRecount call call') :
    ∀ {n : Node} {m : Watch}, m.Formed → env < m.world.store.next →
      Recounts (· = env) m Value.Live (evalNode call env n) (watchNode call' env n)
  | .number x, m, h, hEnv => by
    rw [evalNode, watchNode]
    exact .pure h (live_of_ne_closure (by rintro _ ⟨⟩))
  | .string s, m, h, hEnv => by
    rw [evalNode, watchNode]
    exact .pure h (live_of_ne_closure (by rintro _ ⟨⟩))
  | .boolean b, m, h, hEnv => by
    rw [evalNode, watchNode]
    exact .pure h (live_of_ne_closure (by rintro _ ⟨⟩))
  | .var name, m, h, hEnv => look_recounts h name
  | .assignment target value, m, h, hEnv => by
    cases target with
    | var name =>
      rw [evalNode, watchNode]
      exact (evalNode_recounts hCall h hEnv).bind fun v m' h' _ hv => assign_recounts h' name hv
    | program | assignment | binary | condition | lambda | call | number | string | boolean =>
      rw [evalNode, watchNode]
      · exact .throw h _
      all_goals
        intro name hEq
        cases hEq
  | .binary op left right, m, h, hEnv => by
    rw [evalNode, watchNode]
    refine (evalNode_recounts hCall h hEnv).bind fun l m₁ h₁ hNext₁ hl => ?_
    cases hShort : op.shortcut? l with
    | some v => exact .pure h₁ (shortcut?_within live_apuz hl hShort)
    | none =>
      have hEnv₁ := Nat.lt_of_lt_of_le hEnv hNext₁
      refine (evalNode_recounts hCall h₁ hEnv₁).bind fun r m₂ h₂ hNext₂ hr => ?_
      refine .lift h₂ rfl rfl rfl fun v hv => ?_
      have hWithin := apply_within (fun u hu => live_of_ne_closure hu) op (hl.mono hNext₂) hr
      rw [hv] at hWithin
      exact hWithin
  | .condition test yes no, m, h, hEnv => by
    rw [evalNode, watchNode]
    refine (evalNode_recounts hCall h hEnv).bind fun v m' h' hNext _ => ?_
    have hEnv' := Nat.lt_of_lt_of_le hEnv hNext
    split
    · exact evalElse_recounts hCall h' hEnv'
    · exact evalNode_recounts hCall h' hEnv'
  | .program body, m, h, hEnv => by
    rw [evalNode, watchNode]
    exact evalSequence_recounts hCall h hEnv live_apuz
  | .lambda params body, m, h, hEnv => by
    rw [evalNode, watchNode]
    refine .lift h rfl rfl rfl fun v hv => ?_
    obtain rfl := Except.ok.inj hv
    intro c hc
    obtain rfl := Value.closure.inj hc
    exact hEnv
  | .call callee args, m, h, hEnv => by
    rw [evalNode, watchNode]
    refine (evalNode_recounts hCall h hEnv).bind fun f m₁ h₁ hNext₁ hf => ?_
    have hEnv₁ := Nat.lt_of_lt_of_le hEnv hNext₁
    refine (evalArgs_recounts hCall h₁ hEnv₁).bind fun vs m₂ h₂ hNext₂ hvs => ?_
    exact (hCall m₂ f vs h₂ (hf.mono hNext₂) hvs).weaken (by rintro _ ⟨⟩)

theorem evalElse_recounts (hCall : CallsRecount call call') :
    ∀ {no : Option Node} {m : Watch}, m.Formed → env < m.world.store.next →
      Recounts (· = env) m Value.Live (evalElse call env no) (watchElse call' env no)
  | none, m, h, hEnv => by
    rw [evalElse, watchElse]
    exact .pure h live_apuz
  | some n, m, h, hEnv => by
    rw [evalElse, watchElse]
    exact evalNode_recounts hCall h hEnv

theorem evalSequence_recounts (hCall : CallsRecount call call') :
    ∀ {ns : List Node} {m : Watch} {last : Value}, m.Formed → env < m.world.store.next →
      last.Live m.world.store →
      Recounts (· = env) m Value.Live (evalSequence call env last ns)
        (watchSequence call' env last ns)
  | [], m, last, h, hEnv, hLast => by
    rw [evalSequence, watchSequence]
    exact .pure h hLast
  | n :: ns, m, last, h, hEnv, hLast => by
    rw [evalSequence, watchSequence]
    refine (evalNode_recounts hCall h hEnv).bind fun v m' h' hNext hv => ?_
    exact evalSequence_recounts hCall h' (Nat.lt_of_lt_of_le hEnv hNext) hv

theorem evalArgs_recounts (hCall : CallsRecount call call') :
    ∀ {ns : List Node} {m : Watch}, m.Formed → env < m.world.store.next →
      Recounts (· = env) m (fun s vs => ∀ v ∈ vs, v.Live s) (evalArgs call env ns)
        (watchArgs call' env ns)
  | [], m, h, hEnv => by
    rw [evalArgs, watchArgs]
    exact .pure h (List.forall_mem_nil _)
  | n :: ns, m, h, hEnv => by
    rw [evalArgs, watchArgs]
    refine (evalNode_recounts hCall h hEnv).bind fun v m₁ h₁ hNext₁ hv => ?_
    have hEnv₁ := Nat.lt_of_lt_of_le hEnv hNext₁
    refine (evalArgs_recounts hCall h₁ hEnv₁).bind fun vs m₂ h₂ hNext₂ hvs => ?_
    exact .pure h₂ (List.forall_mem_cons.mpr ⟨hv.mono hNext₂, hvs⟩)

end

end Expressions

-- ----------------------------------------------------------------------------
-- Calls
-- ----------------------------------------------------------------------------

section Calls

variable {call : Caller} {call' : WatchedCaller} {places : FrameId → Prop} {m : Watch}

/-- The frame that a call adds. -/
def Closure.frame (c : Closure) (args : List Value) : Frame :=
  ⟨bindParams [] c.params args, some c.env⟩

theorem holdsIn_add (s : Store) (c : Closure) (args : List Value) :
    Moment.HoldsIn ⟨.entered s.next c, s.add (c.frame args)⟩ (s.add (c.frame args)) := by
  rintro scope d ⟨⟩
  refine ⟨by simp, ?_, fun x => ?_⟩
  · rw [Store.outer?_add, if_pos rfl, Closure.frame]
  · have hNone : ¬ (([] : List (String × Value)).lookup x).isSome = true := Bool.false_ne_true
    rw [Store.bindsAt_add, if_pos rfl]
    exact (lookup_bindParams_isSome [] c.params args x).trans (or_iff_left hNone)

/-- The frame of a call binds the parameters before anything else happens. -/
theorem enter_recounts (h : m.Formed) {c : Closure} (hEnv : c.env < m.world.store.next)
    {args : List Value} (hArgs : ∀ a ∈ args, a.Live m.world.store) :
    Recounts (fun _ => False) m
      (fun s scope => scope < s.next ∧ s.isRoot scope = false) (enterClosure c args)
      (watchEntry c args) := by
  have hExtends := Store.extends_add m.world.store (c.frame args)
  have hWorld : (m.world.addFrame (c.frame args)).2.Formed := by
    refine h.world.addFrame ?_ ?_
    · intro o ho
      exact Option.some.inj ho ▸ hEnv
    · intro x v hIn
      rcases mem_bindParams hIn with hArg | rfl | hNone
      · exact hArgs v hArg
      · exact live_apuz
      · cases hNone
  have hHolds := holdsIn_add m.world.store c args
  have hFormed : (m.note (.entered m.world.store.next c)
      (m.world.addFrame (c.frame args)).2).Formed :=
    h.note hWorld hExtends (fun _ _ _ hNew => hNew) hHolds
  have hLeads : m.Leads (fun _ => False)
      (m.note (.entered m.world.store.next c) (m.world.addFrame (c.frame args)).2)
      [⟨.entered m.world.store.next c, m.world.store.add (c.frame args)⟩] := by
    refine .noted hExtends (fun _ _ hNew => hNew.elim) (by rintro _ _ ⟨⟩) ?_
    intro e hOld hNew
    have hNext := Store.next_add m.world.store (c.frame args)
    have he : e = m.world.store.next :=
      Nat.le_antisymm (Nat.le_of_lt_succ (Nat.lt_of_lt_of_eq hNew hNext)) hOld
    exact ⟨c, he ▸ rfl⟩
  refine ⟨.ok m.world.store.next, _, _, rfl, rfl, hFormed, hLeads, ?_⟩
  rintro scope ⟨⟩
  exact ⟨(hHolds _ c rfl).1, hFormed.not_isRoot ⟨_, List.mem_cons_self, c, rfl⟩⟩

theorem write_recounts (h : m.Formed) (text : String) :
    Recounts places m (fun _ _ => True) (EvalM.ofStep fun w => w.write text)
      (WatchM.lift (EvalM.ofStep fun w => w.write text)) := by
  refine .lift (r := (m.world.write text).1) (w := (m.world.write text).2) h rfl ?_ ?_ ?_
  · rw [write_snd]
  · rw [write_snd]
  · exact fun _ _ => trivial

theorem clock_recounts (h : m.Formed) :
    Recounts places m (fun _ _ => True)
      (EvalM.ofStep fun w =>
        let (now, w) := w.readClock
        (.ok now, w))
      (WatchM.lift (EvalM.ofStep fun w =>
        let (now, w) := w.readClock
        (.ok now, w))) :=
  .lift h rfl rfl rfl fun _ _ => trivial

theorem wan_recounts (h : m.Formed) (args : List Value) :
    Recounts places m Value.Live (runScript call (Script.wan args))
      (watchScript call' (Script.wan args)) := by
  rw [Script.wan, runScript, watchScript]
  refine (write_recounts h _).bind fun _ m' h' _ _ => ?_
  rw [runScript, watchScript]
  exact .lift h' rfl rfl rfl fun v hv => Except.ok.inj hv ▸ live_apuz

/-- A script goes on after its call however the call ended. -/
theorem Recounts.thenScript {f : Value} {args : List Value}
    {next : Except EvalError Value → Script}
    (hx : Recounts places m Value.Live (call f args) (call' f args))
    (hNext : ∀ r m', m'.Formed → (∀ v, r = .ok v → v.Live m'.world.store) →
      Recounts places m' Value.Live (runScript call (next r)) (watchScript call' (next r))) :
    Recounts places m Value.Live (runScript call (.call f args next))
      (watchScript call' (.call f args next)) := by
  obtain ⟨r, m', new, hWatch, hWorld, h', hLeads, hPost⟩ := hx
  obtain ⟨r', m'', new', hWatch', hWorld', h'', hLeads', hPost'⟩ := hNext r m' h' hPost
  refine ⟨r', m'', new' ++ new, ?_, ?_, h'', hLeads.trans hLeads', hPost'⟩
  · rw [watchScript, WatchM.runIn_ofStep, hWatch]
    exact hWatch'
  · rw [runScript, EvalM.runIn_ofStep, hWorld]
    exact hWorld'

theorem time_recounts (hCall : CallsRecount call call') (h : m.Formed) {args : List Value}
    (hArgs : ∀ a ∈ args, a.Live m.world.store) :
    Recounts (fun _ => False) m Value.Live (runScript call (Script.time args))
      (watchScript call' (Script.time args)) := by
  have hFirst : (Script.firstArg args).Live m.world.store := by
    cases args with
    | nil => exact live_apuz
    | cons a as => exact hArgs a List.mem_cons_self
  rw [Script.time, runScript, watchScript]
  refine (clock_recounts h).bind fun started m₁ h₁ hNext₁ _ => ?_
  have hCalled := hCall m₁ _ [] h₁ (hFirst.mono hNext₁) (List.forall_mem_nil _)
  refine hCalled.thenScript fun r m₂ h₂ hLive => ?_
  rw [runScript, watchScript]
  refine (clock_recounts h₂).bind fun ended m₃ h₃ hNext₃ _ => ?_
  rw [runScript, watchScript]
  refine (write_recounts h₃ _).bind fun _ m₄ h₄ hNext₄ _ => ?_
  rw [runScript, watchScript]
  exact .lift h₄ rfl rfl rfl fun v hv => ((hLive v hv).mono hNext₃).mono hNext₄

variable {limit remaining : Nat} {args : List Value}

/-- The body of a closure is evaluated in the frame of the call, which is not a root. -/
theorem closure_recounts
    (hCall : CallsRecount (callWithin limit remaining) (watchCall limit remaining)) (h : m.Formed)
    {c : Closure} (hc : (Value.closure c).Live m.world.store)
    (hArgs : ∀ a ∈ args, a.Live m.world.store) :
    Recounts (fun _ => False) m Value.Live (callWithin limit (remaining + 1) (.closure c) args)
      (watchCall limit (remaining + 1) (.closure c) args) := by
  rw [callWithin, watchCall]
  refine (enter_recounts h (hc c rfl) hArgs).bind fun scope m' h' _ hScope => ?_
  refine (evalNode_recounts hCall h' hScope.1).weaken ?_
  rintro e rfl
  exact Or.inr hScope.2

theorem native_recounts
    (hCall : CallsRecount (callWithin limit remaining) (watchCall limit remaining)) (h : m.Formed)
    (n : Native) (hArgs : ∀ a ∈ args, a.Live m.world.store) :
    Recounts (fun _ => False) m Value.Live (callWithin limit (remaining + 1) (.native n) args)
      (watchCall limit (remaining + 1) (.native n) args) := by
  unfold Recounts
  rw [callWithin, watchCall, EvalM.runIn_ofStep, WatchM.runIn_ofStep]
  cases hBody : m.world.natives[n.id]? with
  | none => exact Recounts.throw h _
  | some body =>
    rcases h.world.natives body (Array.mem_of_getElem? hBody) with rfl | rfl
    · exact wan_recounts h args
    · exact time_recounts hCall h hArgs

end Calls

/-- **A watched call recounts the call.** -/
theorem callWithin_recounts (limit remaining : Nat) :
    CallsRecount (callWithin limit remaining) (watchCall limit remaining) := by
  induction remaining with
  | zero =>
    intro m f args h hf hArgs
    rw [callWithin, watchCall]
    exact .throw h _
  | succ remaining ih =>
    intro m f args h hf hArgs
    cases f with
    | closure c => exact closure_recounts ih h hf hArgs
    | native n => exact native_recounts ih h n hArgs
    | number | string | boolean =>
      rw [callWithin, watchCall]
      · exact .throw h _
      all_goals
        intro x hEq
        cases hEq

-- ----------------------------------------------------------------------------
-- Sessions
-- ----------------------------------------------------------------------------

section Sessions

variable {m : Watch} {op : Operation} {ops : List Operation}

theorem Recounts.ends {places : FrameId → Prop} {α : Type} {post : Store → α → Prop} {x : EvalM α}
    {y : WatchM α} (h : Recounts places m post x y) :
    (y.runIn m).2.Formed ∧ (y.runIn m).2.world = (x.runIn m.world).2 ∧
      ∃ new, m.Leads places (y.runIn m).2 new := by
  obtain ⟨r, m', new, hWatch, hWorld, hFormed, hLeads, -⟩ := h
  rw [hWatch, hWorld]
  exact ⟨hFormed, rfl, new, hLeads⟩

/-- An expression is evaluated in a frame that exists. -/
theorem evaluate_leads (h : m.Formed) (config : Config) {env : FrameId} (n : Node)
    (hEnv : env < m.world.store.next) :
    (m.perform (.evaluate config env n)).Formed ∧
      (m.perform (.evaluate config env n)).world = m.world.perform (.evaluate config env n) ∧
      ∃ new, m.Leads (· = env) (m.perform (.evaluate config env n)) new :=
  (evalNode_recounts (callWithin_recounts config.maxCallDepth config.maxCallDepth) h hEnv).ends

/-- A live value is called with live values. -/
theorem call_leads (h : m.Formed) (config : Config) {f : Value} {args : List Value}
    (hf : f.Live m.world.store) (hArgs : ∀ a ∈ args, a.Live m.world.store) :
    (m.perform (.call config f args)).Formed ∧
      (m.perform (.call config f args)).world = m.world.perform (.call config f args) ∧
      ∃ new, m.Leads (fun _ => False) (m.perform (.call config f args)) new :=
  (callWithin_recounts config.maxCallDepth config.maxCallDepth m f args h hf hArgs).ends

/-- What the host does between evaluations keeps the frames of calls as they are. -/
theorem hosted_formed (h : m.Formed) {w : World} {new : FrameId → String → Prop} (hWorld : w.Formed)
    (hExtends : m.world.store.Extends new w.store) (hCalls : ∀ e x, m.Called e → ¬ new e x) :
    (m.note .hosted w).Formed ∧ m.world.store.Extends (fun _ _ => True) w.store :=
  ⟨h.note hWorld hExtends hCalls (by rintro _ _ ⟨⟩), hExtends.mono fun _ _ _ _ => trivial⟩

/-- **One operation keeps the forest**, whether or not it succeeds. -/
theorem perform_formed (h : m.Formed) (hOp : op.Permitted m) :
    (m.perform op).world = m.world.perform op ∧ (m.perform op).Formed ∧
      m.world.store.Extends (fun _ _ => True) (m.perform op).world.store := by
  cases op with
  | root =>
    refine ⟨rfl, hosted_formed h (h.world.addFrame ?_ ?_) (Store.extends_add _ _) ?_⟩
    · rintro o ⟨⟩
    · rintro x v ⟨⟩
    · exact fun _ _ _ hNew => hNew
  | enclose outer =>
    refine ⟨rfl, hosted_formed h (h.world.addFrame ?_ ?_) (Store.extends_add _ _) ?_⟩
    · rintro o ⟨⟩
      exact hOp
    · rintro x v ⟨⟩
    · exact fun _ _ _ hNew => hNew
  | define frame name value =>
    obtain ⟨-, hHost, hLive⟩ := hOp
    refine ⟨rfl, hosted_formed h (h.world.define name hLive) (Store.extends_define _ _ _ _) ?_⟩
    rintro e x hCalled ⟨rfl, -⟩
    exact hHost hCalled
  | install frame name body =>
    obtain ⟨-, hHost, hBody⟩ := hOp
    refine ⟨rfl, hosted_formed h (h.world.install name hBody) (Store.extends_define _ _ _ _) ?_⟩
    rintro e x hCalled ⟨rfl, -⟩
    exact hHost hCalled
  | set frame name value =>
    refine ⟨rfl, hosted_formed h (h.world.assign name hOp.2) (assign_extends _ _ _ _) ?_⟩
    exact h.not_assigned frame name
  | evaluate config env n =>
    obtain ⟨hFormed, hWorld, new, hLeads⟩ := evaluate_leads h config n hOp
    exact ⟨hWorld, hFormed, hLeads.store.mono fun _ _ _ _ => trivial⟩
  | call config f args =>
    obtain ⟨hFormed, hWorld, new, hLeads⟩ := call_leads h config hOp.1 hOp.2
    exact ⟨hWorld, hFormed, hLeads.store.mono fun _ _ _ _ => trivial⟩

/-- One operation keeps the forest, so every session does. -/
theorem after_formed (h : m.Formed) (hOps : m.Permits ops) :
    (m.after ops).world = m.world.after ops ∧ (m.after ops).Formed ∧
      m.world.store.Extends (fun _ _ => True) (m.after ops).world.store := by
  induction ops generalizing m with
  | nil => exact ⟨rfl, h, .refl _⟩
  | cons op ops ih =>
    obtain ⟨hWorld, hFormed, hExtends⟩ := perform_formed h hOps.1
    obtain ⟨hWorld', hFormed', hExtends'⟩ := ih hFormed hOps.2
    refine ⟨?_, hFormed', hExtends.trans hExtends' (fun _ _ _ _ => trivial) fun _ _ _ _ => trivial⟩
    show ((m.perform op).after ops).world = (m.world.perform op).after ops
    rw [hWorld', hWorld]

theorem Watch.Permits.append {later : List Operation} (h : m.Permits (ops ++ later)) :
    m.Permits ops ∧ (m.after ops).Permits later := by
  induction ops generalizing m with
  | nil => exact ⟨trivial, h⟩
  | cons op ops ih =>
    obtain ⟨hOps, hLater⟩ := ih h.2
    exact ⟨⟨h.1, hOps⟩, hLater⟩

theorem start_formed (sink : Sink) (clock : Nat → Nat) : (Watch.start sink clock).Formed where
  world := by
    refine ⟨?_, ?_, ?_⟩
    · intro e o hOuter
      exact absurd (Store.lt_next_of_outer? hOuter) (Nat.not_lt_zero e)
    · intro e f x v hFrame _
      have hNone : (Watch.start sink clock).world.store.frame? e = none := rfl
      rw [hNone] at hFrame
      cases hFrame
    · intro body hBody
      cases Array.not_mem_empty body hBody
  entered := List.forall_mem_nil _
  since := .nil
  now := List.forall_mem_nil _

end Sessions

/-- **Frames form a forest, in every session.** Take any session and any point of it. From there to
the end no frame has moved and none has lost a name, and the frames hang from older ones, so that
every walk ends at a root. The frame of a call binds exactly the parameters of its closure: when the
closure is entered, at every later moment, and at the end.

If what is left of the session is one evaluation, it has added a name only to a root, by an
assignment that was evaluated in this root, and no frames but those of the calls in it. If it is one
call, it has added no name to any frame that was there. -/
theorem frames_form_a_forest (sink : Sink) (clock : Nat → Nat) (ops later : List Operation)
    (hPermitted : (Watch.start sink clock).Permits (ops ++ later)) :
    let before := (Watch.start sink clock).after ops
    let after := (Watch.start sink clock).after (ops ++ later)
    after.world = (World.empty sink clock).after (ops ++ later) ∧
    after.world.store.Forest ∧
    before.world.store.Extends (fun _ _ => True) after.world.store ∧
    (∀ k ∈ after.history, k.HoldsIn k.store ∧ k.HoldsIn after.world.store) ∧
    after.history.Pairwise (fun late early => early.HoldsIn late.store) ∧
    (∀ config env n, later = [.evaluate config env n] →
      ∃ new, after.history = new ++ before.history ∧
        before.world.store.Extends (fun e x => e = env ∧ before.world.store.isRoot e = true ∧
          ∃ k ∈ new, k.what = .assigned e x) after.world.store ∧
        ∀ e, before.world.store.next ≤ e → e < after.world.store.next →
          ∃ k ∈ new, ∃ c, k.what = .entered e c) ∧
    (∀ config f args, later = [.call config f args] →
      ∃ new, after.history = new ++ before.history ∧
        before.world.store.Extends (fun _ _ => False) after.world.store ∧
        ∀ e, before.world.store.next ≤ e → e < after.world.store.next →
          ∃ k ∈ new, ∃ c, k.what = .entered e c) := by
  intro before after
  have hAfter : after = before.after later := List.foldl_append
  obtain ⟨hOps, hLater⟩ := hPermitted.append
  obtain ⟨hWorld, hFormed, -⟩ := after_formed (start_formed sink clock) hPermitted
  obtain ⟨-, hBefore, -⟩ := after_formed (start_formed sink clock) hOps
  obtain ⟨-, -, hExtends⟩ := after_formed hBefore hLater
  refine ⟨hWorld, forest_of_older hFormed.world.older, hAfter ▸ hExtends, ?_, hFormed.since, ?_, ?_⟩
  · intro k hk
    exact ⟨hFormed.entered k hk, hFormed.now k hk⟩
  · rintro config env n rfl
    obtain ⟨-, -, new, hLeads⟩ := evaluate_leads hBefore config n hLater.1
    rw [hAfter]
    exact ⟨new, hLeads.history, hLeads.gained, hLeads.entered⟩
  · rintro config f args rfl
    obtain ⟨-, -, new, hLeads⟩ := call_leads hBefore config hLater.1.1 hLater.1.2
    rw [hAfter]
    exact ⟨new, hLeads.history, hLeads.gained.mono fun _ _ _ hNew => hNew.1, hLeads.entered⟩

theorem not_called {m : Watch} {e : FrameId} (h : ∀ k ∈ m.history, k.what = .hosted) :
    ¬ m.Called e := by
  rintro ⟨k, hk, c, hWhat⟩
  rw [h k hk] at hWhat
  cases hWhat

/-- A root with `wan` and a frame of the host in it. A program leaves a closure behind that sets a
name of the call around it, and an assignment in the frame of the host fails. -/
def tally : List Operation :=
  [.root, .install 0 "wan" Script.wan, .enclose 0, .define 1 "limit" (.string "ten"),
    .evaluate ⟨9⟩ 0 (.program
      [.assignment (.var "make") (.lambda ["n"] (.lambda ["step"]
        (.assignment (.var "n") (.var "step")))),
      .assignment (.var "count") (.call (.var "make") [.string "none"])]),
    .evaluate ⟨9⟩ 1 (.assignment (.var "seen") (.string "none"))]

/-- Calls the closure in the root. -/
def tallyOnce : Operation :=
  .evaluate ⟨9⟩ 0 (.assignment (.var "seen") (.call (.var "count") [.string "one"]))

/-- The beginning of a session without a limit on what is written. -/
def quiet : Watch :=
  .start (.ofQuota none) fun _ => 0

/-- The host keeps to its own frames. -/
theorem tally_permitted : quiet.Permits (tally ++ [tallyOnce]) := by
  refine ⟨trivial, ⟨?_, ?_, Or.inl rfl⟩, ?_, ⟨?_, ?_, live_of_ne_closure (by rintro _ ⟨⟩)⟩, ?_, ?_,
    ?_, trivial⟩
  · show 0 < _
    decide +kernel
  · exact not_called (List.forall_mem_singleton.mpr rfl)
  · show 0 < _
    decide +kernel
  · show 1 < _
    decide +kernel
  · exact not_called (List.forall_mem_cons.mpr ⟨rfl, List.forall_mem_cons.mpr
      ⟨rfl, List.forall_mem_singleton.mpr rfl⟩⟩)
  · show 0 < _
    decide +kernel
  · show 1 < _
    decide +kernel
  · show 0 < _
    decide +kernel

/-- The root has a new name, and there was an assignment to it in the root. The frame of the earlier
call still binds its one parameter. -/
theorem frames_form_a_forest_tally :
    quiet.Permits (tally ++ [tallyOnce]) ∧
      (quiet.after tally).world.store.bindsAt 0 "seen" = false ∧
      (quiet.after (tally ++ [tallyOnce])).world.store.bindsAt 0 "seen" = true ∧
      (∃ k ∈ (quiet.after (tally ++ [tallyOnce])).history, k.what = .assigned 0 "seen") ∧
      ∀ k ∈ (quiet.after (tally ++ [tallyOnce])).history,
        k.HoldsIn (quiet.after (tally ++ [tallyOnce])).world.store := by
  obtain ⟨-, -, -, hHolds, -, hEvaluated, -⟩ :=
    frames_form_a_forest (.ofQuota none) (fun _ => 0) tally [tallyOnce] tally_permitted
  obtain ⟨new, hHistory, hExtends, -⟩ := hEvaluated _ _ _ rfl
  obtain ⟨-, -, k, hk, hWhat⟩ := hExtends.gained (e := 0) (x := "seen") (by decide +kernel)
    (by decide +kernel) (by decide +kernel)
  refine ⟨tally_permitted, by decide +kernel, by decide +kernel, ⟨k, ?_, hWhat⟩, ?_⟩
  · rw [quiet, hHistory]
    exact List.mem_append_left _ hk
  · exact fun k hk => (hHolds k hk).2

end Zaban
