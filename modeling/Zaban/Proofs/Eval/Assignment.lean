import Zaban.Proofs.Eval.Forest

/-!
# Assignments in the forest of frames

A host builds a forest by adding roots and frames inside others, and by binding
and assigning to names (`World.Assembled`). What a name stands for is decided
by the walk outward: the **nearest** frame that binds it (`Store.Nearest`).

Binding a name in a frame and assigning to it from a frame are one kind of
change, which sets one name in one frame (`World.Rebinds`). An assignment makes
it in the nearest frame that binds the name, or in its own frame if none does
and it is a root, and otherwise fails. After the change every walk on which the
frame is now the nearest one that binds the name gives the new value, and all
others give what they gave.

Everything is read off two equations that take one step of a walk:
`Store.binder?_step` for the search, and `Store.get?_step` for its outcome.
-/

namespace Zaban

-- ----------------------------------------------------------------------------
-- Walks outward
-- ----------------------------------------------------------------------------

namespace Store

/-- What frame `d` itself binds the name to. -/
def valueAt? (s : Store) (d : FrameId) (x : String) : Option Value :=
  (s.frame? d).bind (·.get? x)

/-- The walk outward from `e` comes to frame `d`. -/
def Passes (s : Store) (e d : FrameId) : Prop :=
  ∃ count, s.climb count e = some d

/-- Frame `f` is the first on the walk outward from `e` that binds the name. -/
def Nearest (s : Store) (e : FrameId) (x : String) (f : FrameId) : Prop :=
  ∃ count, s.climb count e = some f ∧ s.bindsAt f x = true ∧
    ∀ i < count, ∀ d, s.climb i e = some d → s.bindsAt d x = false

section Walks

variable {s : Store} {e f o : FrameId} {x : String}

theorem bindsAt_eq_isSome (s : Store) (d : FrameId) (x : String) :
    s.bindsAt d x = (s.valueAt? d x).isSome := by
  unfold bindsAt valueAt?
  cases s.frame? d <;> rfl

theorem valueAt?_eq_none (h : s.bindsAt e x = false) : s.valueAt? e x = none := by
  rw [bindsAt_eq_isSome] at h
  exact Option.isNone_iff_eq_none.mp (Option.isSome_eq_false_iff.mp h)

/-- A frame that binds the name is the nearest one to itself. -/
theorem nearest_iff_of_bindsAt (h : s.bindsAt e x = true) : s.Nearest e x f ↔ f = e := by
  constructor
  · rintro ⟨count, hClimb, -, hBefore⟩
    cases count with
    | zero => exact (Option.some.inj hClimb).symm
    | succ count =>
      have hNot := hBefore 0 (Nat.succ_pos count) e rfl
      rw [h] at hNot
      cases hNot
  · rintro rfl
    exact ⟨0, rfl, h, fun i hi => absurd hi (Nat.not_lt_zero i)⟩

/-- A frame that does not bind the name is passed by. -/
theorem nearest_iff_of_outer? (h : s.bindsAt e x = false) (hOuter : s.outer? e = some o) :
    s.Nearest e x f ↔ s.Nearest o x f := by
  have hStep : ∀ count, s.climb (count + 1) e = s.climb count o := by
    intro count
    rw [climb, hOuter]
    rfl
  constructor
  · rintro ⟨count, hClimb, hBinds, hBefore⟩
    cases count with
    | zero =>
      obtain rfl := Option.some.inj hClimb
      rw [h] at hBinds
      cases hBinds
    | succ count =>
      rw [hStep] at hClimb
      refine ⟨count, hClimb, hBinds, fun i hi d hd => ?_⟩
      exact hBefore (i + 1) (Nat.succ_lt_succ hi) d ((hStep i).trans hd)
  · rintro ⟨count, hClimb, hBinds, hBefore⟩
    refine ⟨count + 1, (hStep count).trans hClimb, hBinds, fun i hi d hd => ?_⟩
    cases i with
    | zero =>
      obtain rfl := Option.some.inj hd
      exact h
    | succ i => exact hBefore i (Nat.lt_of_succ_lt_succ hi) d ((hStep i).symm.trans hd)

/-- At a root the walk ends. -/
theorem not_nearest_of_root (h : s.bindsAt e x = false) (hOuter : s.outer? e = none) :
    ¬ s.Nearest e x f := by
  rintro ⟨count, hClimb, hBinds, -⟩
  cases count with
  | zero =>
    obtain rfl := Option.some.inj hClimb
    rw [h] at hBinds
    cases hBinds
  | succ count =>
    rw [climb, hOuter] at hClimb
    cases hClimb

variable (hOlder : ∀ e o, s.outer? e = some o → o < e)
include hOlder

/-- **One step of a search**: the frame itself, or a search from the frame around it. -/
theorem binder?_step (e : FrameId) (x : String) :
    s.binder? e x = if s.bindsAt e x then some e else (s.outer? e).bind (s.binder? · x) := by
  rw [binder?, binderFrom]
  cases hFrame : s.frame? e with
  | none =>
    have hNone : s.bindsAt e x = false := by
      unfold bindsAt
      rw [hFrame]
      rfl
    have hOuter : s.outer? e = none := by
      unfold outer?
      rw [hFrame]
      rfl
    simp only [hNone, hOuter, Bool.false_eq_true, if_false, Option.bind_none]
  | some f =>
    rw [bindsAt_eq hFrame, outer?_eq hFrame]
    cases hOut : f.outer with
    | none => simp only [hOut, Option.bind_none]
    | some o =>
      have ho := hOlder e o ((outer?_eq hFrame).trans hOut)
      simp only [hOut, Option.bind_some, binder?, binderFrom_eq hOlder x ho (Nat.lt_succ_self o)]

/-- **A search finds the nearest frame that binds the name.** -/
theorem binder?_eq_some_iff : s.binder? e x = some f ↔ s.Nearest e x f := by
  induction e using Nat.strongRecOn with
  | ind e ih =>
    rw [binder?_step hOlder]
    cases hBinds : s.bindsAt e x with
    | true =>
      rw [if_pos rfl, nearest_iff_of_bindsAt hBinds, Option.some_inj]
      exact eq_comm
    | false =>
      rw [if_neg Bool.false_ne_true]
      cases hOuter : s.outer? e with
      | none => simp only [Option.bind_none, not_nearest_of_root hBinds hOuter, reduceCtorEq]
      | some o =>
        rw [Option.bind_some, nearest_iff_of_outer? hBinds hOuter]
        exact ih o (hOlder e o hOuter)

/-- **One step of a look-up**: the frame's own value, or the value in the frame around it. -/
theorem get?_step (e : FrameId) (x : String) :
    s.get? e x = (s.valueAt? e x).or ((s.outer? e).bind (s.get? · x)) := by
  have hGet : ∀ d, s.get? d x = (s.binder? d x).bind (s.valueAt? · x) := fun _ => rfl
  rw [hGet, binder?_step hOlder]
  cases hBinds : s.bindsAt e x with
  | true =>
    rw [bindsAt_eq_isSome] at hBinds
    obtain ⟨v, hv⟩ := Option.isSome_iff_exists.mp hBinds
    simp only [if_true, Option.bind_some, hv, Option.some_or]
  | false =>
    rw [valueAt?_eq_none hBinds, if_neg Bool.false_ne_true, Option.none_or]
    cases s.outer? e with
    | none => rfl
    | some o => exact (hGet o).symm

end Walks

-- ----------------------------------------------------------------------------
-- One binding set
-- ----------------------------------------------------------------------------

section Define

variable {s : Store} {e : FrameId}

theorem valueAt?_define (he : e < s.next) (x : String) (v : Value) (d : FrameId) (y : String) :
    (s.define e x v).valueAt? d y = if d = e ∧ y = x then some v else s.valueAt? d y := by
  unfold valueAt?
  rw [frame?_define]
  by_cases hd : e = d
  · subst hd
    obtain ⟨f, hFrame⟩ := Option.isSome_iff_exists.mp (frame?_isSome_iff.mpr he)
    simp only [if_true, hFrame, Option.map_some, Option.bind_some, Frame.get?_define, true_and]
  · have hOther : ¬ (d = e ∧ y = x) := fun h => hd h.1.symm
    rw [if_neg hd, if_neg hOther]

theorem climb_define (e : FrameId) (x : String) (v : Value) (count : Nat) (d : FrameId) :
    (s.define e x v).climb count d = s.climb count d := by
  induction count generalizing d with
  | zero => rfl
  | succ count ih =>
    rw [climb, climb, outer?_define]
    cases s.outer? d with
    | none => rfl
    | some o => exact ih o

variable (hOlder : ∀ e o, s.outer? e = some o → o < e)
include hOlder

/-- **What every frame sees of a change.** The induction is along the walk from the observing frame:
the changed frame answers for itself, a frame that binds the name hides it, and any other passes the
question on. -/
theorem get?_define_cases (he : e < s.next) (x : String) (v : Value) (g : FrameId) (y : String) :
    (y = x ∧ (s.define e x v).Nearest g x e ∧ (s.define e x v).get? g y = some v) ∨
      (¬ (y = x ∧ (s.define e x v).Nearest g x e) ∧ (s.define e x v).get? g y = s.get? g y) := by
  have hOlder' : ∀ d o, (s.define e x v).outer? d = some o → o < d := by
    intro d o hOuter
    rw [outer?_define] at hOuter
    exact hOlder d o hOuter
  induction g using Nat.strongRecOn with
  | ind g ih =>
    rw [get?_step hOlder' g y, get?_step hOlder g y, valueAt?_define he, outer?_define]
    by_cases hHere : g = e ∧ y = x
    · obtain ⟨rfl, rfl⟩ := hHere
      have hBinds : (s.define g y v).bindsAt g y = true :=
        bindsAt_define.mpr (Or.inr ⟨rfl, rfl, he⟩)
      exact Or.inl ⟨rfl, (nearest_iff_of_bindsAt hBinds).mpr rfl, by simp⟩
    · rw [if_neg hHere]
      have hNames : (s.define e x v).bindsAt g y = s.bindsAt g y := by
        rw [bindsAt_eq_isSome, valueAt?_define he, if_neg hHere, ← bindsAt_eq_isSome]
      cases hBinds : s.bindsAt g y with
      | true =>
        -- the frame hides what lies behind it
        obtain ⟨u, hu⟩ := Option.isSome_iff_exists.mp (bindsAt_eq_isSome s g y ▸ hBinds)
        refine Or.inr ⟨?_, by simp only [hu, Option.some_or]⟩
        rintro ⟨rfl, hNearest⟩
        exact hHere ⟨((nearest_iff_of_bindsAt (hNames.trans hBinds)).mp hNearest).symm, rfl⟩
      | false =>
        rw [valueAt?_eq_none hBinds, Option.none_or, Option.none_or]
        cases hOuter : s.outer? g with
        | none =>
          refine Or.inr ⟨?_, rfl⟩
          rintro ⟨rfl, hNearest⟩
          refine not_nearest_of_root (hNames.trans hBinds) ?_ hNearest
          rw [outer?_define, hOuter]
        | some o =>
          have hOuter' : (s.define e x v).outer? g = some o :=
            (outer?_define s e g x v).trans hOuter
          have hPassed : y = x →
              ((s.define e x v).Nearest g x e ↔ (s.define e x v).Nearest o x e) := by
            rintro rfl
            exact nearest_iff_of_outer? (hNames.trans hBinds) hOuter'
          rcases ih o (hOlder g o hOuter) with ⟨hName, hNearest, hSeen⟩ | ⟨hHidden, hKept⟩
          · exact Or.inl ⟨hName, (hPassed hName).mpr hNearest, hSeen⟩
          · refine Or.inr ⟨?_, hKept⟩
            rintro ⟨hName, hNearest⟩
            exact hHidden ⟨hName, (hPassed hName).mp hNearest⟩

end Define

end Store

-- ----------------------------------------------------------------------------
-- Assignments
-- ----------------------------------------------------------------------------

/-- The frames were made by adding roots and frames inside others, and by binding and assigning to
names in them. -/
inductive World.Assembled : World → Prop where
  | bare {w : World} (hNone : w.store = .empty) : Assembled w
  | root {w : World} (h : Assembled w) : Assembled w.addRoot.2
  | enclose {w : World} {outer : FrameId} (h : Assembled w) (hOuter : outer < w.store.next) :
      Assembled (w.enclose outer).2
  | define {w : World} {e : FrameId} (h : Assembled w) (he : e < w.store.next) (x : String)
      (v : Value) : Assembled (w.define e x v)
  | assign {w : World} {e : FrameId} (h : Assembled w) (he : e < w.store.next) (x : String)
      (v : Value) : Assembled (w.assign e x v).2

/-- The second world is the first with one name set in frame `f`. -/
structure World.Rebinds (w w' : World) (f : FrameId) (x : String) (v : Value) : Prop where
  others : { w' with store := w.store } = w
  frames : w'.store.next = w.store.next ∧ ∀ d, w'.store.outer? d = w.store.outer? d
  values : ∀ d y, w'.store.valueAt? d y = if d = f ∧ y = x then some v else w.store.valueAt? d y
  seen   : ∀ g, w'.store.Nearest g x f → w'.store.get? g x = some v
  unseen : ∀ g y, ¬ (y = x ∧ w'.store.Nearest g x f) → w'.store.get? g y = w.store.get? g y

section Assignments

variable {w : World} {e f : FrameId} {x : String} {v : Value}

/-- Frames hang from older ones, however they were made. -/
theorem World.Assembled.older (h : w.Assembled) : ∀ e o, w.store.outer? e = some o → o < e := by
  induction h with
  | bare hNone =>
    intro e o hOuter
    rw [hNone] at hOuter
    cases hOuter
  | @root w _ ih =>
    intro e o hOuter
    change (w.store.add ⟨[], none⟩).outer? e = some o at hOuter
    rw [Store.outer?_add] at hOuter
    split at hOuter
    · cases hOuter
    · exact ih e o hOuter
  | @enclose w outer _ hFrame ih =>
    intro e o hOuter
    change (w.store.add ⟨[], some outer⟩).outer? e = some o at hOuter
    rw [Store.outer?_add] at hOuter
    split at hOuter
    · rename_i he
      obtain rfl := Option.some.inj hOuter
      exact he ▸ hFrame
    · exact ih e o hOuter
  | @define w d _ _ x v ih =>
    intro e o hOuter
    exact ih e o ((Store.outer?_define w.store d e x v).symm.trans hOuter)
  | @assign w d _ _ x v ih =>
    intro e o hOuter
    rcases assign_cases w d x v with ⟨t, -, hAssign⟩ | hAssign
    · rw [hAssign] at hOuter
      exact ih e o ((Store.outer?_define w.store t e x v).symm.trans hOuter)
    · rw [hAssign] at hOuter
      exact ih e o hOuter

theorem World.Assembled.rebinds (h : w.Assembled) (he : e < w.store.next) (x : String) (v : Value) :
    w.Rebinds (w.define e x v) e x v where
  others := rfl
  frames := ⟨Store.next_define w.store e x v, fun d => Store.outer?_define w.store e d x v⟩
  values := Store.valueAt?_define he x v
  seen g hNearest := by
    rcases Store.get?_define_cases h.older he x v g x with ⟨-, -, hSeen⟩ | ⟨hHidden, -⟩
    · exact hSeen
    · exact absurd ⟨rfl, hNearest⟩ hHidden
  unseen g y hHidden := by
    rcases Store.get?_define_cases h.older he x v g y with ⟨hName, hNearest, -⟩ | ⟨-, hKept⟩
    · exact absurd ⟨hName, hNearest⟩ hHidden
    · exact hKept

theorem Store.Nearest.lt_next {s : Store} (h : s.Nearest e x f) : f < s.next := by
  obtain ⟨-, -, hBinds, -⟩ := h
  exact Store.lt_next_of_bindsAt hBinds

/-- An assignment sets the name in the nearest frame that binds it. -/
theorem World.Assembled.assign_nearest (h : w.Assembled) (hNearest : w.store.Nearest e x f)
    (v : Value) : w.assign e x v = (.ok v, w.define f x v) := by
  have hTarget : w.store.target? e x = some f := by
    rw [Store.target?, (Store.binder?_eq_some_iff h.older).mpr hNearest, Option.some_or]
  rw [World.assign, hTarget]

/-- A name that is bound nowhere on the walk is set in a root, and in no other frame. -/
theorem World.Assembled.assign_unbound (h : w.Assembled) (hNone : ∀ f, ¬ w.store.Nearest e x f)
    (v : Value) : w.assign e x v =
      if w.store.isRoot e then (.ok v, w.define e x v) else (.error (.undefinedVariable x), w) := by
  have hBinder : w.store.binder? e x = none := by
    rw [Option.eq_none_iff_forall_ne_some]
    exact fun f hf => hNone f ((Store.binder?_eq_some_iff h.older).mp hf)
  rw [World.assign, Store.target?, hBinder, Option.none_or]
  cases w.store.isRoot e <;> rfl

/--
**An assignment changes one binding.** It succeeds, with the value that was
assigned, exactly if some frame on the walk outward binds the name or its own
frame is a root, and otherwise leaves the world as it is. It sets the name in
the nearest frame that binds it, or in its own frame, a root, if none does.
From every frame a look-up then gives the new value if it ends in the frame that
was changed, and otherwise what it gave before.

The same change is made by binding the name in a frame, which therefore shows
in no frame whose walk does not pass it.
-/
theorem assignment_changes_one_binding (h : w.Assembled) (he : e < w.store.next) (x : String)
    (v : Value) :
    ((w.assign e x v).1 = .ok v ↔ (∃ f, w.store.Nearest e x f) ∨ w.store.isRoot e = true) ∧
    (¬ ((∃ f, w.store.Nearest e x f) ∨ w.store.isRoot e = true) →
      w.assign e x v = (.error (.undefinedVariable x), w)) ∧
    (∀ f, w.store.Nearest e x f → w.Rebinds (w.assign e x v).2 f x v) ∧
    ((∀ f, ¬ w.store.Nearest e x f) → w.store.isRoot e = true →
      w.Rebinds (w.assign e x v).2 e x v) ∧
    w.Rebinds (w.define e x v) e x v ∧
    ∀ g, ¬ w.store.Passes g e → ∀ y, (w.define e x v).store.get? g y = w.store.get? g y := by
  have hFails : ¬ ((∃ f, w.store.Nearest e x f) ∨ w.store.isRoot e = true) →
      w.assign e x v = (.error (.undefinedVariable x), w) := by
    intro hNot
    obtain ⟨hNone, hInner⟩ := not_or.mp hNot
    rw [h.assign_unbound (not_exists.mp hNone), if_neg hInner]
  refine ⟨⟨?_, ?_⟩, hFails, ?_, ?_, h.rebinds he x v, ?_⟩
  · intro hOk
    by_cases hBound : (∃ f, w.store.Nearest e x f) ∨ w.store.isRoot e = true
    · exact hBound
    · rw [hFails hBound] at hOk
      cases hOk
  · intro hBound
    by_cases hNear : ∃ f, w.store.Nearest e x f
    · obtain ⟨f, hf⟩ := hNear
      rw [h.assign_nearest hf]
    · rw [h.assign_unbound (not_exists.mp hNear), if_pos (hBound.resolve_left hNear)]
  · intro f hf
    rw [h.assign_nearest hf]
    exact h.rebinds hf.lt_next x v
  · intro hNone hRoot
    rw [h.assign_unbound hNone, if_pos hRoot]
    exact h.rebinds he x v
  · intro g hApart y
    refine (h.rebinds he x v).unseen g y ?_
    rintro ⟨-, count, hClimb, -⟩
    exact hApart ⟨count, (Store.climb_define e x v count g).symm.trans hClimb⟩

end Assignments

/-- A root, a frame in it that hides the name of the root, a frame in that one, and a frame beside
them. -/
def shadowed : World :=
  let w := (World.empty (.ofQuota none) fun _ => 0).addRoot.2.define 0 "a" (.string "far")
  let w := (w.enclose 0).2.define 1 "a" (.string "near")
  ((w.enclose 1).2.enclose 0).2

theorem shadowed_assembled : shadowed.Assembled := by
  refine .enclose (.enclose (.define (.enclose (.define (.root ?_) ?_ _ _) ?_) ?_ _ _) ?_) ?_
  · exact .bare rfl
  all_goals decide +kernel

/-- From the innermost frame the name is set in the frame around it, and a name that is bound
nowhere cannot be set; and what that frame binds is not seen from the root. -/
theorem assignment_changes_one_binding_shadowed :
    shadowed.Assembled ∧ 2 < shadowed.store.next ∧
      shadowed.Rebinds (shadowed.assign 2 "a" .apuz).2 1 "a" .apuz ∧
      shadowed.assign 2 "b" .apuz = (.error (.undefinedVariable "b"), shadowed) ∧
      (shadowed.define 1 "a" .apuz).store.get? 0 "a" = some (.string "far") := by
  have hInner : 2 < shadowed.store.next := by decide +kernel
  have hMiddle : 1 < shadowed.store.next := by decide +kernel
  have hOuter : shadowed.store.outer? 0 = none ∧ shadowed.store.outer? 1 = some 0 ∧
      shadowed.store.outer? 2 = some 1 := by decide +kernel
  have hNames : shadowed.store.bindsAt 2 "a" = false ∧ shadowed.store.bindsAt 1 "a" = true ∧
      shadowed.store.bindsAt 2 "b" = false ∧ shadowed.store.bindsAt 1 "b" = false ∧
      shadowed.store.bindsAt 0 "b" = false := by decide +kernel
  obtain ⟨-, -, hSet, -⟩ := assignment_changes_one_binding shadowed_assembled hInner "a" .apuz
  obtain ⟨-, hFails, -⟩ := assignment_changes_one_binding shadowed_assembled hInner "b" .apuz
  obtain ⟨-, -, -, -, -, hHidden⟩ :=
    assignment_changes_one_binding shadowed_assembled hMiddle "a" .apuz
  refine ⟨shadowed_assembled, hInner, hSet 1 ?_, hFails ?_, (hHidden 0 ?_ "a").trans rfl⟩
  · rw [Store.nearest_iff_of_outer? hNames.1 hOuter.2.2, Store.nearest_iff_of_bindsAt hNames.2.1]
  · rintro (⟨f, hf⟩ | hRoot)
    · rw [Store.nearest_iff_of_outer? hNames.2.2.1 hOuter.2.2,
        Store.nearest_iff_of_outer? hNames.2.2.2.1 hOuter.2.1] at hf
      exact Store.not_nearest_of_root hNames.2.2.2.2 hOuter.1 hf
    · rw [Store.isRoot, hOuter.2.2] at hRoot
      cases hRoot
  · rintro ⟨count, hClimb⟩
    cases count with
    | zero => cases hClimb
    | succ count =>
      rw [Store.climb, hOuter.1] at hClimb
      cases hClimb

end Zaban
