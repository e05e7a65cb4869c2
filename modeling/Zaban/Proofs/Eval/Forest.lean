import Zaban.Eval.Natives
import Zaban.Proofs.Eval.Chains

/-!
# The forest of frames

Frames form a forest: each frame but the roots hangs from an older one. So a
walk outward ends at a root, and a search visits every frame on it
(`forest_of_older`).

`Store.Extends` says what may become of a forest. Frames are added, but none
moves and none loses a name; which names may be new is a parameter. An
assignment adds a name only to its own frame, and only if that is a root
(`assign_extends`).

A world is **well formed** when its frames are a forest in which every closure
captures a frame that exists.
-/

namespace Zaban

-- ----------------------------------------------------------------------------
-- Stores that have grown
-- ----------------------------------------------------------------------------

namespace Store

theorem outer?_add (s : Store) (f : Frame) (d : FrameId) :
    (s.add f).outer? d = if d = s.next then f.outer else s.outer? d := by
  unfold outer?
  rw [frame?_add]
  split <;> rfl

theorem bindsAt_add (s : Store) (f : Frame) (d : FrameId) (x : String) :
    (s.add f).bindsAt d x = if d = s.next then f.binds x else s.bindsAt d x := by
  unfold bindsAt
  rw [frame?_add]
  split <;> rfl

@[simp] theorem outer?_define (s : Store) (e d : FrameId) (name : String) (v : Value) :
    (s.define e name v).outer? d = s.outer? d := by
  unfold outer?
  rw [frame?_define]
  split
  · cases s.frame? d <;> rfl
  · rfl

theorem bindsAt_define {s : Store} {e d : FrameId} {name x : String} {v : Value} :
    (s.define e name v).bindsAt d x = true ↔
      s.bindsAt d x = true ∨ d = e ∧ x = name ∧ e < s.next := by
  unfold bindsAt
  rw [frame?_define, ← frame?_isSome_iff]
  by_cases he : e = d
  · subst he
    cases s.frame? e with
    | none => simp
    | some f =>
      by_cases hx : x = name <;> simp [Frame.binds, hx]
  · simp [he, Ne.symm he]

theorem lt_next_of_outer? {s : Store} {e o : FrameId} (h : s.outer? e = some o) : e < s.next := by
  obtain ⟨f, hFrame, -⟩ := Option.bind_eq_some_iff.mp h
  exact frame?_isSome_iff.mp (hFrame ▸ rfl)

theorem lt_next_of_not_isRoot {s : Store} {e : FrameId} (h : s.isRoot e = false) :
    e < s.next := by
  obtain ⟨o, ho⟩ := Option.isSome_iff_exists.mp (Option.isNone_eq_false_iff.mp h)
  exact lt_next_of_outer? ho

theorem lt_next_of_bindsAt {s : Store} {e : FrameId} {x : String} (h : s.bindsAt e x = true) :
    e < s.next := by
  rcases Nat.lt_or_ge e s.next with hOld | hNew
  · exact hOld
  · rw [bindsAt, frame?_eq_none_iff.mpr hNew] at h
    cases h

/-- The frames of `s` are frames of `t`: they hang where they hung, and bind the names that they
bound, and no others but those that `new` allows. -/
structure Extends (new : FrameId → String → Prop) (s t : Store) : Prop where
  next  : s.next ≤ t.next
  outer : ∀ e, e < s.next → t.outer? e = s.outer? e
  names : ∀ e x, s.bindsAt e x = true → t.bindsAt e x = true
  fresh : ∀ e x, e < s.next → t.bindsAt e x = true → s.bindsAt e x = true ∨ new e x

section Extends

variable {s t u : Store} {new new' : FrameId → String → Prop} {e : FrameId}

theorem Extends.refl (s : Store) : s.Extends new s :=
  ⟨Nat.le_refl _, fun _ _ => rfl, fun _ _ h => h, fun _ _ _ h => Or.inl h⟩

/-- What is new after two steps is new after the first or after the second. -/
theorem Extends.trans {old : FrameId → String → Prop} (h : s.Extends old t) (h' : t.Extends new u)
    (hOld : ∀ e x, e < s.next → old e x → new' e x)
    (hNew : ∀ e x, e < s.next → new e x → new' e x) : s.Extends new' u where
  next := Nat.le_trans h.next h'.next
  outer e he := (h'.outer e (Nat.lt_of_lt_of_le he h.next)).trans (h.outer e he)
  names e x hx := h'.names e x (h.names e x hx)
  fresh e x he hx := by
    rcases h'.fresh e x (Nat.lt_of_lt_of_le he h.next) hx with hBound | hNow
    · exact (h.fresh e x he hBound).imp_right (hOld e x he)
    · exact Or.inr (hNew e x he hNow)

theorem Extends.mono (h : s.Extends new t) (hNew : ∀ e x, e < s.next → new e x → new' e x) :
    s.Extends new' t :=
  h.trans (.refl t) hNew hNew

/-- A name that a frame did not bind is one that `new` allows. -/
theorem Extends.gained (h : s.Extends new t) {x : String} (he : e < s.next)
    (hOld : s.bindsAt e x = false) (hNow : t.bindsAt e x = true) : new e x := by
  rcases h.fresh e x he hNow with hBound | hNew
  · cases hOld.symm.trans hBound
  · exact hNew

theorem Extends.isRoot (h : s.Extends new t) (he : e < s.next) : t.isRoot e = s.isRoot e :=
  congrArg Option.isNone (h.outer e he)

theorem Extends.not_isRoot (h : s.Extends new t) (hInner : s.isRoot e = false) :
    t.isRoot e = false := by
  rw [h.isRoot (lt_next_of_not_isRoot hInner), hInner]

theorem extends_add (s : Store) (f : Frame) : s.Extends (fun _ _ => False) (s.add f) where
  next := by simp
  outer e he := by rw [outer?_add, if_neg (Nat.ne_of_lt he)]
  names e x hx := by
    rw [bindsAt_add, if_neg (Nat.ne_of_lt (lt_next_of_bindsAt hx)), hx]
  fresh e x he hx := by
    rw [bindsAt_add, if_neg (Nat.ne_of_lt he)] at hx
    exact Or.inl hx

theorem extends_define (s : Store) (e : FrameId) (name : String) (v : Value) :
    s.Extends (fun d x => d = e ∧ x = name) (s.define e name v) where
  next := by simp
  outer d _ := outer?_define s e d name v
  names d x hx := bindsAt_define.mpr (Or.inl hx)
  fresh d x _ hx := (bindsAt_define.mp hx).imp_right fun h => ⟨h.1, h.2.1⟩

end Extends

end Store

/-- An assignment sets a name in one frame or leaves the world as it is. -/
theorem assign_cases (w : World) (e : FrameId) (name : String) (v : Value) :
    (∃ t, w.store.target? e name = some t ∧ w.assign e name v = (.ok v, w.define t name v)) ∨
      w.assign e name v = (.error (.undefinedVariable name), w) := by
  unfold World.assign
  cases h : w.store.target? e name with
  | none => exact Or.inr rfl
  | some t => exact Or.inl ⟨t, rfl, rfl⟩

theorem next_assign (w : World) (e : FrameId) (name : String) (v : Value) :
    (w.assign e name v).2.store.next = w.store.next := by
  rcases assign_cases w e name v with ⟨t, -, hAssign⟩ | hAssign
  · rw [hAssign]
    exact Store.next_define w.store t name v
  · rw [hAssign]

theorem eq_of_assign_ok (w : World) (e : FrameId) (name : String) (v a : Value)
    (h : (w.assign e name v).1 = .ok a) : a = v := by
  rcases assign_cases w e name v with ⟨t, -, hAssign⟩ | hAssign
  · rw [hAssign] at h
    exact (Except.ok.inj h).symm
  · rw [hAssign] at h
    cases h

/-- **An assignment adds a name only to its own frame, and only if that is a root.** -/
theorem assign_extends (w : World) (e : FrameId) (name : String) (v : Value) :
    w.store.Extends (fun d x => d = e ∧ x = name ∧ w.store.isRoot e = true)
      (w.assign e name v).2.store := by
  rcases assign_cases w e name v with ⟨t, hTarget, hAssign⟩ | hAssign
  · rw [hAssign]
    have hDefine := Store.extends_define w.store t name v
    rcases Option.or_eq_some_iff.mp hTarget with hBinder | ⟨-, hSelf⟩
    · -- the name was bound, so none is new
      refine ⟨hDefine.next, hDefine.outer, hDefine.names, ?_⟩
      intro d x hd hx
      rcases hDefine.fresh d x hd hx with hOld | ⟨rfl, rfl⟩
      · exact Or.inl hOld
      · exact Or.inl (binderFrom_bindsAt hBinder)
    · split at hSelf
      · rename_i hRoot
        obtain rfl := Option.some.inj hSelf
        exact hDefine.mono fun d x _ hNew => ⟨hNew.1, hNew.2, hRoot⟩
      · cases hSelf
  · rw [hAssign]
    exact .refl _

-- ----------------------------------------------------------------------------
-- Walks
-- ----------------------------------------------------------------------------

/-- Frames hang from older ones. So every walk outward ends, at a root, and the bound on the walk of
a search is never felt. -/
structure Store.Forest (s : Store) : Prop where
  older  : ∀ e o, s.outer? e = some o → o < e
  rooted : ∀ e, e < s.next → ∃ count root, s.climb count e = some root ∧ root < s.next ∧
    s.isRoot root = true
  walks  : ∀ e name fuel, e < fuel → s.binderFrom name fuel e = s.binder? e name

section Walks

variable {s : Store}

theorem climb_to_root (h : ∀ e o, s.outer? e = some o → o < e) (e : FrameId) (he : e < s.next) :
    ∃ count root, s.climb count e = some root ∧ root < s.next ∧ s.isRoot root = true := by
  induction e using Nat.strongRecOn with
  | ind e ih =>
    cases hOuter : s.outer? e with
    | none => exact ⟨0, e, rfl, he, congrArg Option.isNone hOuter⟩
    | some o =>
      have ho := h e o hOuter
      obtain ⟨count, root, hClimb, hRoot⟩ := ih o ho (Nat.lt_trans ho he)
      refine ⟨count + 1, root, ?_, hRoot⟩
      rw [Store.climb, hOuter]
      exact hClimb

theorem binderFrom_eq (h : ∀ e o, s.outer? e = some o → o < e) (name : String) {e : FrameId}
    {fuel fuel' : Nat} (hFuel : e < fuel) (hFuel' : e < fuel') :
    s.binderFrom name fuel e = s.binderFrom name fuel' e := by
  induction fuel generalizing e fuel' with
  | zero => cases hFuel
  | succ fuel ih =>
    obtain ⟨fuel', rfl⟩ := Nat.exists_eq_add_one_of_ne_zero (Nat.ne_zero_of_lt hFuel')
    rw [Store.binderFrom, Store.binderFrom]
    cases hFrame : s.frame? e with
    | none => rfl
    | some f =>
      cases hOuter : f.outer with
      | none => simp only [hOuter]
      | some o =>
        have ho := h e o ((outer?_eq hFrame).trans hOuter)
        have hRest := ih (Nat.lt_of_lt_of_le ho (Nat.le_of_lt_succ hFuel))
          (Nat.lt_of_lt_of_le ho (Nat.le_of_lt_succ hFuel'))
        simp only [hOuter, hRest]

theorem forest_of_older (h : ∀ e o, s.outer? e = some o → o < e) : s.Forest where
  older := h
  rooted := climb_to_root h
  walks e name _ hFuel := binderFrom_eq h name hFuel (Nat.lt_succ_self e)

end Walks

-- ----------------------------------------------------------------------------
-- Well-formed worlds
-- ----------------------------------------------------------------------------

/-- A closure captures a frame that exists. -/
def Value.Live (s : Store) (v : Value) : Prop :=
  ∀ c, v = .closure c → c.env < s.next

/-- Every frame hangs from an older one, or is a root; every closure that is bound captures a frame
that exists; and the native functions are the standard ones. -/
structure World.Formed (w : World) : Prop where
  older   : ∀ e o, w.store.outer? e = some o → o < e
  live    : ∀ e f x v, w.store.frame? e = some f → (x, v) ∈ f.bindings → v.Live w.store
  natives : ∀ body ∈ w.natives, body = Script.wan ∨ body = Script.time

section Formed

variable {w : World} {e : FrameId} {v : Value} {s t : Store}

theorem Value.Live.mono (h : v.Live s) (hNext : s.next ≤ t.next) : v.Live t :=
  fun c hc => Nat.lt_of_lt_of_le (h c hc) hNext

theorem live_of_ne_closure (h : ∀ c, v ≠ .closure c) : v.Live s :=
  fun c hc => absurd hc (h c)

theorem live_apuz : Value.apuz.Live s :=
  live_of_ne_closure (by rintro _ ⟨⟩)

theorem World.Formed.addFrame (h : w.Formed) {f : Frame}
    (hOuter : ∀ o, f.outer = some o → o < w.store.next)
    (hBound : ∀ x v, (x, v) ∈ f.bindings → v.Live w.store) : (w.addFrame f).2.Formed where
  older e o hOut := by
    change (w.store.add f).outer? e = some o at hOut
    rw [Store.outer?_add] at hOut
    split at hOut
    · rename_i he
      exact he ▸ hOuter o hOut
    · exact h.older e o hOut
  live e g x v hFrame hIn := by
    have hNext : w.store.next ≤ (w.store.add f).next := by simp
    change (w.store.add f).frame? e = some g at hFrame
    rw [Store.frame?_add] at hFrame
    split at hFrame
    · exact (hBound x v (Option.some.inj hFrame ▸ hIn)).mono hNext
    · exact (h.live e g x v hFrame hIn).mono hNext
  natives := h.natives

theorem World.Formed.define (h : w.Formed) (name : String) (hv : v.Live w.store) :
    (w.define e name v).Formed where
  older d o hOut := h.older d o ((Store.outer?_define w.store e d name v).symm.trans hOut)
  live d f x u hFrame hIn := by
    have hNext : w.store.next ≤ (w.store.define e name v).next := by simp
    change (w.store.define e name v).frame? d = some f at hFrame
    rw [Store.frame?_define] at hFrame
    split at hFrame
    · obtain ⟨g, hg, rfl⟩ := Option.map_eq_some_iff.mp hFrame
      rcases Frame.mem_bind hIn with rfl | hOld
      · exact hv.mono hNext
      · exact (h.live d g x u hg hOld).mono hNext
    · exact (h.live d f x u hFrame hIn).mono hNext
  natives := h.natives

theorem World.Formed.assign (h : w.Formed) (name : String) (hv : v.Live w.store) :
    (w.assign e name v).2.Formed := by
  rcases assign_cases w e name v with ⟨t, -, hAssign⟩ | hAssign
  · rw [hAssign]
    exact h.define name hv
  · rw [hAssign]
    exact h

theorem World.Formed.install (h : w.Formed) (name : String) {body : NativeBody}
    (hBody : body = Script.wan ∨ body = Script.time) : (w.install e name body).Formed := by
  have hAdded : World.Formed { w with natives := w.natives.push body } := by
    refine ⟨h.older, h.live, ?_⟩
    intro other hOther
    rcases Array.mem_push.mp hOther with hOld | rfl
    · exact h.natives other hOld
    · exact hBody
  exact hAdded.define name (live_of_ne_closure (by rintro _ ⟨⟩))

/-- A name has a value that was bound, so a live one. -/
theorem World.Formed.get? (h : w.Formed) {name : String} (hGet : w.store.get? e name = some v) :
    v.Live w.store := by
  obtain ⟨b, -, hFound⟩ := Option.bind_eq_some_iff.mp hGet
  obtain ⟨f, hFrame, hLookup⟩ := Option.bind_eq_some_iff.mp hFound
  exact h.live b f name v hFrame (Frame.mem_of_lookup hLookup)

end Formed

end Zaban
