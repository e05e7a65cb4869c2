import Zaban.Eval.Semantics

/-!
# Frames after a change

What the operations on frames and stores do, seen through the look-ups:
`Frame.get?` for a single frame and `Store.frame?` for the store. Nothing that
follows opens the list of bindings or the array of frames again.

The last part says what `bindParams` binds: exactly the parameters, and no
value but the arguments and the false value.
-/

namespace Zaban

-- ----------------------------------------------------------------------------
-- One frame
-- ----------------------------------------------------------------------------

namespace Frame

theorem mem_bind {name x : String} {value v : Value} {bs : List (String × Value)}
    (h : (x, v) ∈ bind name value bs) : v = value ∨ (x, v) ∈ bs := by
  induction bs with
  | nil =>
    rw [bind, List.mem_singleton] at h
    exact Or.inl (Prod.mk.inj h).2
  | cons b bs ih =>
    obtain ⟨other, u⟩ := b
    rw [bind] at h
    split at h
    · rcases List.mem_cons.mp h with hHead | hTail
      · exact Or.inl (Prod.mk.inj hHead).2
      · exact Or.inr (List.mem_cons_of_mem _ hTail)
    · rcases List.mem_cons.mp h with hHead | hTail
      · exact Or.inr (hHead ▸ List.mem_cons_self)
      · exact (ih hTail).imp_right (List.mem_cons_of_mem _)

theorem lookup_cons_eq (name x : String) (value : Value) (bs : List (String × Value)) :
    ((name, value) :: bs).lookup x = if x = name then some value else bs.lookup x := by
  by_cases hx : x = name
  · subst hx
    rw [List.lookup_cons_self, if_pos rfl]
  · have hSkip : (x == name) = false := by simpa using hx
    rw [List.lookup_cons, hSkip, if_neg hx]

theorem lookup_bind (name x : String) (value : Value) (bs : List (String × Value)) :
    (bind name value bs).lookup x = if x = name then some value else bs.lookup x := by
  induction bs with
  | nil => rw [bind, lookup_cons_eq]
  | cons b bs ih =>
    obtain ⟨other, u⟩ := b
    by_cases hName : name = other
    · subst hName
      rw [bind, beq_self_eq_true, if_pos rfl, lookup_cons_eq, lookup_cons_eq]
      by_cases hx : x = name <;> simp [hx]
    · have hOther : (name == other) = false := by simpa using hName
      rw [bind, hOther, lookup_cons_eq]
      simp only [Bool.false_eq_true, if_false, lookup_cons_eq, ih]
      by_cases hx : x = other
      · simp [hx, Ne.symm hName]
      · simp [hx]

@[simp] theorem get?_define (f : Frame) (name x : String) (value : Value) :
    (f.define name value).get? x = if x = name then some value else f.get? x :=
  lookup_bind name x value f.bindings

/-- A change of a name that the frame binds leaves the names it binds as they are. -/
theorem binds_define_of_binds {f : Frame} {name : String} (h : f.binds name = true)
    (value : Value) (x : String) : (f.define name value).binds x = f.binds x := by
  unfold binds at h ⊢
  rw [get?_define]
  by_cases hx : x = name
  · subst hx
    rw [if_pos rfl, h]
    rfl
  · rw [if_neg hx]

theorem mem_of_lookup {x : String} {v : Value} {bs : List (String × Value)}
    (h : bs.lookup x = some v) : (x, v) ∈ bs := by
  induction bs with
  | nil => cases h
  | cons b bs ih =>
    obtain ⟨y, u⟩ := b
    rw [lookup_cons_eq] at h
    split at h
    · rename_i hx
      rw [hx, Option.some.inj h]
      exact List.mem_cons_self
    · exact List.mem_cons_of_mem _ (ih h)

end Frame

-- ----------------------------------------------------------------------------
-- The store
-- ----------------------------------------------------------------------------

namespace Store

theorem frame?_define (s : Store) (e d : FrameId) (name : String) (value : Value) :
    (s.define e name value).frame? d =
      if e = d then (s.frame? d).map (·.define name value) else s.frame? d := by
  unfold define frame?
  rw [Array.getElem?_modify]

@[simp] theorem next_define (s : Store) (e : FrameId) (name : String) (value : Value) :
    (s.define e name value).next = s.next := by
  unfold define next
  exact Array.size_modify

theorem frame?_add (s : Store) (f : Frame) (d : FrameId) :
    (s.add f).frame? d = if d = s.next then some f else s.frame? d := by
  unfold add frame? next
  exact Array.getElem?_push

@[simp] theorem next_add (s : Store) (f : Frame) : (s.add f).next = s.next + 1 := by
  unfold add next
  exact Array.size_push f

/-- The frames that exist are those before the next one. -/
theorem frame?_isSome_iff {s : Store} {e : FrameId} : (s.frame? e).isSome = true ↔ e < s.next := by
  unfold frame? next
  simp

theorem frame?_eq_none_iff {s : Store} {e : FrameId} : s.frame? e = none ↔ s.next ≤ e := by
  unfold frame? next
  simp

end Store

-- ----------------------------------------------------------------------------
-- Parameters
-- ----------------------------------------------------------------------------

theorem mem_bindParams {bs : List (String × Value)} {params : List String} {args : List Value}
    {x : String} {v : Value} (h : (x, v) ∈ bindParams bs params args) :
    v ∈ args ∨ v = .apuz ∨ (x, v) ∈ bs := by
  induction params generalizing bs args with
  | nil => exact Or.inr (Or.inr h)
  | cons p ps ih =>
    rcases ih h with hTail | hFalse | hBound
    · exact Or.inl (List.mem_of_mem_tail hTail)
    · exact Or.inr (Or.inl hFalse)
    · rcases Frame.mem_bind hBound with hHead | hOld
      · cases args with
        | nil => exact Or.inr (Or.inl hHead)
        | cons a as => exact Or.inl (hHead ▸ List.mem_cons_self)
      · exact Or.inr (Or.inr hOld)

/-- A name is bound by the frame of a call when it is a parameter. -/
theorem lookup_bindParams_isSome (bs : List (String × Value)) (params : List String)
    (args : List Value) (x : String) :
    ((bindParams bs params args).lookup x).isSome = true ↔
      x ∈ params ∨ (bs.lookup x).isSome = true := by
  induction params generalizing bs args with
  | nil => simp [bindParams]
  | cons p ps ih =>
    rw [bindParams, ih, Frame.lookup_bind, List.mem_cons]
    by_cases hx : x = p
    · simp [hx]
    · simp [hx]

end Zaban
