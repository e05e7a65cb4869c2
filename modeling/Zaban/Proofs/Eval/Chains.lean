import Zaban.Proofs.Eval.Addressed
import Zaban.Proofs.Eval.Frames

/-!
# Chains of frames

The frames on the walk outward from a frame form its **chain**. A chain has the
shape of a nest when it consists of one call frame for each parameter list of
the nest, in order, each binding the names of its list and no others, and of
the root after them (`Chain`).

In such a chain a search for a name ends where its address leads
(`Chain.binder?_eq`, `Chain.target?_eq`). A store may grow: frames are added,
the root gets new names, and values change. Neither the frame around a frame
nor the names of a call frame change then (`Store.Grows`), so a chain keeps its
shape (`Chain.mono`).
-/

namespace Zaban

/-- The chain of frame `e` has the shape of the nest and ends in the root. -/
inductive Chain (s : Store) (root : FrameId) : FrameId → Nest → Prop where
  | root {f : Frame} (hFrame : s.frame? root = some f) (hOuter : f.outer = none) :
      Chain s root root []
  | call {e o : FrameId} {f : Frame} {params : List String} {nest : Nest}
      (hFrame : s.frame? e = some f) (hOuter : f.outer = some o) (hOlder : o < e)
      (hNames : ∀ x, f.binds x = true ↔ x ∈ params) (hRest : Chain s root o nest) :
      Chain s root e (params :: nest)

-- ----------------------------------------------------------------------------
-- Searches in a chain
-- ----------------------------------------------------------------------------

section Searches

variable {s : Store} {root e o b t : FrameId} {nest : Nest} {f : Frame} {x : String}

theorem bindsAt_eq (hFrame : s.frame? e = some f) : s.bindsAt e x = f.binds x := by
  unfold Store.bindsAt
  rw [hFrame]
  rfl

theorem outer?_eq (hFrame : s.frame? e = some f) : s.outer? e = f.outer := by
  unfold Store.outer?
  rw [hFrame]
  rfl

/-- A place seen from inside is the same place seen from the frame around. -/
theorem readPlace_fromInside (hOuter : s.outer? e = some o) (place : Address) :
    s.readPlace root e x place.fromInside = s.readPlace root o x place := by
  cases place with
  | climb count =>
    show (s.outer? e).bind (s.climb count) = s.climb count o
    rw [hOuter]
    rfl
  | global => rfl

theorem Chain.binderFrom_eq (h : Chain s root e nest) (x : String) {fuel : Nat}
    (hFuel : Nat.lt e fuel) :
    s.binderFrom x fuel e = s.readPlace root e x (.of x nest) := by
  induction h generalizing fuel with
  | root hFrame hOuter =>
    obtain ⟨fuel, rfl⟩ := Nat.exists_eq_add_one_of_ne_zero (Nat.ne_zero_of_lt hFuel)
    rw [Store.binderFrom, hFrame]
    simp only [hOuter, Address.of, Store.readPlace, bindsAt_eq hFrame]
  | @call e o f params nest hFrame hOuter hOlder hNames _ ih =>
    obtain ⟨fuel, rfl⟩ := Nat.exists_eq_add_one_of_ne_zero (Nat.ne_zero_of_lt hFuel)
    rw [Store.binderFrom, hFrame]
    by_cases hx : x ∈ params
    · have hBinds : f.binds x = true := (hNames x).mpr hx
      simp only [hBinds, if_true, Address.of, hx, Store.readPlace, Store.climb]
    · have hBinds : ¬ f.binds x = true := fun hb => hx ((hNames x).mp hb)
      have hOut : s.outer? e = some o := (outer?_eq hFrame).trans hOuter
      simp only [hBinds, hOuter, Address.of, hx, if_false]
      rw [readPlace_fromInside hOut]
      exact ih (Nat.lt_of_lt_of_le hOlder (Nat.le_of_lt_succ hFuel))

/-- **A search for a name ends where its address leads.** -/
theorem Chain.binder?_eq (h : Chain s root e nest) (x : String) :
    s.binder? e x = s.readPlace root e x (.of x nest) :=
  h.binderFrom_eq x (Nat.lt_succ_self e)

theorem Chain.isRoot_eq (h : Chain s root e nest) : s.isRoot e = nest.isEmpty := by
  unfold Store.isRoot
  cases h with
  | root hFrame hOuter =>
    rw [outer?_eq hFrame, hOuter]
    rfl
  | call hFrame hOuter =>
    rw [outer?_eq hFrame, hOuter]
    rfl

/-- **An assignment changes the frame at the address of its name**; a global name may be new only
outside every function. -/
theorem Chain.target?_eq (h : Chain s root e nest) (x : String) :
    s.target? e x = s.writePlace root e x (!nest.isEmpty) (.of x nest) := by
  unfold Store.target?
  rw [h.isRoot_eq, h.binder?_eq x]
  cases h with
  | root hFrame hOuter =>
    simp only [Address.of, Store.readPlace, Store.writePlace, List.isEmpty_nil]
    cases s.bindsAt root x <;> rfl
  | @call _ _ _ params nest =>
    simp only [List.isEmpty_cons, Bool.false_eq_true, if_false, Option.or_none]
    cases Address.of x (params :: nest) with
    | climb count => rfl
    | global =>
      simp only [Store.readPlace, Store.writePlace, Bool.not_false, Bool.not_true, Bool.or_false]

theorem binderFrom_bindsAt {fuel : Nat} (h : s.binderFrom x fuel e = some b) :
    s.bindsAt b x = true := by
  induction fuel generalizing e with
  | zero => cases h
  | succ fuel ih =>
    rw [Store.binderFrom] at h
    cases hFrame : s.frame? e with
    | none =>
      rw [hFrame] at h
      cases h
    | some f =>
      simp only [hFrame] at h
      split at h
      · rename_i hBinds
        obtain rfl := Option.some.inj h
        exact (bindsAt_eq hFrame).trans hBinds
      · split at h
        · cases h
        · exact ih h

/-- What an assignment changes binds the name already, or is a root. -/
theorem target?_bindsAt_or_isRoot (h : s.target? e x = some t) :
    s.bindsAt t x = true ∨ s.isRoot t = true := by
  rcases Option.or_eq_some_iff.mp h with hBinder | ⟨-, hSelf⟩
  · exact Or.inl (binderFrom_bindsAt hBinder)
  · split at hSelf
    · rename_i hRoot
      exact Or.inr (Option.some.inj hSelf ▸ hRoot)
    · cases hSelf

end Searches

-- ----------------------------------------------------------------------------
-- Growing stores
-- ----------------------------------------------------------------------------

/-- The frames of the first store are frames of the second, with the same frames around them; a
frame that is not a root binds the same names. -/
def Store.Grows (s s' : Store) : Prop :=
  ∀ e f, s.frame? e = some f → ∃ f', s'.frame? e = some f' ∧ f'.outer = f.outer ∧
    (f.outer ≠ none → ∀ x, f'.binds x = f.binds x)

section Growth

variable {s s' s'' : Store} {root e t : FrameId} {nest : Nest} {x : String}

theorem Store.Grows.refl (s : Store) : s.Grows s := by
  intro e f hFrame
  exact ⟨f, hFrame, rfl, fun _ _ => rfl⟩

theorem Store.Grows.trans (h : s.Grows s') (h' : s'.Grows s'') : s.Grows s'' := by
  intro e f hFrame
  obtain ⟨f', hFrame', hOuter, hNames⟩ := h e f hFrame
  obtain ⟨f'', hFrame'', hOuter', hNames'⟩ := h' e f' hFrame'
  refine ⟨f'', hFrame'', hOuter'.trans hOuter, ?_⟩
  intro hCall x
  rw [hNames' (hOuter ▸ hCall) x, hNames hCall x]

theorem Store.grows_add (s : Store) (f : Frame) : s.Grows (s.add f) := by
  intro e g hFrame
  refine ⟨g, ?_, rfl, fun _ _ => rfl⟩
  rw [Store.frame?_add, if_neg, hFrame]
  rintro rfl
  rw [Store.frame?_eq_none_iff.mpr (Nat.le_refl _)] at hFrame
  cases hFrame

/-- A change of a name that is bound already, or in a root, lets the store grow. -/
theorem Store.grows_define (h : s.bindsAt t x = true ∨ s.isRoot t = true) (v : Value) :
    s.Grows (s.define t x v) := by
  intro e f hFrame
  rw [Store.frame?_define, hFrame]
  by_cases he : t = e
  · subst he
    refine ⟨f.define x v, if_pos rfl, rfl, ?_⟩
    intro hCall
    have hNotRoot : ¬ s.isRoot t = true := by
      unfold Store.isRoot
      rw [outer?_eq hFrame, Option.isNone_iff_eq_none]
      exact hCall
    have hBinds : f.binds x = true := (bindsAt_eq hFrame).symm.trans (h.resolve_right hNotRoot)
    exact Frame.binds_define_of_binds hBinds v
  · exact ⟨f, if_neg he, rfl, fun _ _ => rfl⟩

/-- A chain keeps its shape while the store grows. -/
theorem Chain.mono (h : Chain s root e nest) (hGrows : s.Grows s') : Chain s' root e nest := by
  induction h with
  | root hFrame hOuter =>
    obtain ⟨f', hFrame', hOuter', -⟩ := hGrows _ _ hFrame
    exact .root hFrame' (hOuter'.trans hOuter)
  | call hFrame hOuter hOlder hNames _ ih =>
    obtain ⟨f', hFrame', hOuter', hSame⟩ := hGrows _ _ hFrame
    have hCall := hSame (hOuter ▸ Option.some_ne_none _)
    refine .call hFrame' (hOuter'.trans hOuter) hOlder ?_ ih
    intro x
    rw [hCall x, hNames x]

theorem Chain.lt_next (h : Chain s root e nest) : e < s.next := by
  cases h with
  | root hFrame => exact Store.frame?_isSome_iff.mp (hFrame ▸ rfl)
  | call hFrame => exact Store.frame?_isSome_iff.mp (hFrame ▸ rfl)

/-- The frame of a call lies in front of the chain of its closure. -/
theorem Chain.enter (h : Chain s root e nest) (params : List String) (args : List Value) :
    Chain (s.add ⟨bindParams [] params args, some e⟩) root s.next (params :: nest) := by
  have hFrame : (s.add ⟨bindParams [] params args, some e⟩).frame? s.next =
      some ⟨bindParams [] params args, some e⟩ := by
    rw [Store.frame?_add, if_pos rfl]
  refine .call hFrame rfl h.lt_next ?_ (h.mono (Store.grows_add _ _))
  intro x
  have hNone : ¬ (([] : List (String × Value)).lookup x).isSome = true := Bool.false_ne_true
  exact (lookup_bindParams_isSome [] params args x).trans (or_iff_left hNone)

end Growth

end Zaban
