import Zaban.Proofs.Eval.Chains
import Zaban.Proofs.Eval.Forest

/-!
# Handing closures on

A closure is copied whenever it is assigned to a name, passed as an argument,
given as the result of a function, or chosen by a logical operator or a
conditional; and native functions do with it what they like. Each of these
hands on the very closure that it was given, with its identity. `Conveys` says
so of one closure and one way of calling values, with a part for each way of
copying; it holds of every closure (`conveys_closure`).

Behind the part on assignments is what a name means right after it was assigned
to (`get?_assign`), and behind the one on arguments what a parameter means in
the frame of a call (`lookup_bindParams`).
-/

namespace Zaban

-- ----------------------------------------------------------------------------
-- Reading back
-- ----------------------------------------------------------------------------

namespace Store

/-- A change of a name in a frame that binds it leads no search elsewhere. -/
theorem binderFrom_define {s : Store} {t : FrameId} {x : String} (hBinds : s.bindsAt t x = true)
    (v : Value) (fuel : Nat) (e : FrameId) :
    (s.define t x v).binderFrom x fuel e = s.binderFrom x fuel e := by
  induction fuel generalizing e with
  | zero => rfl
  | succ fuel ih =>
    rw [binderFrom, binderFrom, frame?_define]
    by_cases hHere : t = e
    · subst hHere
      rw [if_pos rfl]
      cases hFrame : s.frame? t with
      | none => rfl
      | some f =>
        have hf : f.binds x = true := by
          rw [bindsAt, hFrame] at hBinds
          exact hBinds
        simp only [Option.map_some, Frame.binds_define_of_binds hf, hf, if_true]
    · rw [if_neg hHere]
      simp only [ih]

end Store

/-- **A name that was assigned to has the value.** -/
theorem get?_assign {w w' : World} {e : FrameId} {x : String} {v u : Value}
    (he : e < w.store.next) (hAssign : w.assign e x v = (.ok u, w')) :
    w'.store.get? e x = some v := by
  obtain ⟨t, hTarget, hSet⟩ | hRefused := assign_cases w e x v
  · obtain ⟨-, rfl⟩ := Prod.mk.inj (hSet.symm.trans hAssign)
    change (w.store.define t x v).get? e x = some v
    rcases Option.or_eq_some_iff.mp hTarget with hBinder | ⟨hNone, hSelf⟩
    · have hBinds : w.store.bindsAt t x = true := binderFrom_bindsAt hBinder
      obtain ⟨f, hFrame⟩ := Option.isSome_iff_exists.mp
        (Store.frame?_isSome_iff.mpr (Store.lt_next_of_bindsAt hBinds))
      have hBinder' : (w.store.define t x v).binder? e x = some t :=
        (Store.binderFrom_define hBinds v _ e).trans hBinder
      rw [Store.get?, hBinder', Option.bind_some, Store.frame?_define, if_pos rfl, hFrame]
      simp
    · -- the name is new, and `e` is a root
      obtain rfl : e = t := by
        split at hSelf
        · exact Option.some.inj hSelf
        · cases hSelf
      obtain ⟨f, hFrame⟩ := Option.isSome_iff_exists.mp (Store.frame?_isSome_iff.mpr he)
      have hBinder' : (w.store.define e x v).binder? e x = some e := by
        rw [Store.binder?, Store.binderFrom, Store.frame?_define, if_pos rfl, hFrame]
        simp [Frame.binds]
      rw [Store.get?, hBinder', Option.bind_some, Store.frame?_define, if_pos rfl, hFrame]
      simp
  · rw [hRefused] at hAssign
    cases hAssign

theorem lookup_bindParams_of_not_mem {x : String} {params : List String} (hx : x ∉ params)
    (bs : List (String × Value)) (args : List Value) :
    (bindParams bs params args).lookup x = bs.lookup x := by
  induction params generalizing bs args with
  | nil => rfl
  | cons p ps ih =>
    obtain ⟨hHead, hTail⟩ := List.ne_and_not_mem_of_not_mem_cons hx
    rw [bindParams, ih hTail, Frame.lookup_bind, if_neg hHead]

/-- A parameter is bound to its argument, unless a later one has the same name. -/
theorem lookup_bindParams {params : List String} {args : List Value} {i : Nat} {p : String}
    {v : Value} (hParam : params[i]? = some p) (hLast : p ∉ params.drop (i + 1))
    (hArg : args[i]? = some v) (bs : List (String × Value)) :
    (bindParams bs params args).lookup p = some v := by
  induction params generalizing i args bs with
  | nil => cases hParam
  | cons q ps ih =>
    cases args with
    | nil => cases hArg
    | cons a as =>
      cases i with
      | zero =>
        cases hParam
        cases hArg
        have hRest : p ∉ ps := hLast
        rw [bindParams, lookup_bindParams_of_not_mem hRest, Frame.lookup_bind, if_pos rfl]
        rfl
      | succ i => exact ih hParam hLast hArg _

-- ----------------------------------------------------------------------------
-- Ways of copying
-- ----------------------------------------------------------------------------

/-- The expression has the value `v` in frame `env`, and leads from the world `w` to `w'`. -/
def HasValue (call : Caller) (env : FrameId) (n : Node) (w : World) (v : Value) (w' : World) :
    Prop :=
  (evalNode call env n).runIn w = (.ok v, w')

/-- What copies the closure hands on the closure itself. -/
structure Conveys (limit remaining : Nat) (c : Closure) : Prop where
  /-- A closure equals itself. -/
  self       : (Value.closure c).equals (.closure c) = true
  /-- An assignment gives the closure, and so does the name from then on. -/
  assignment : ∀ env x n w w₁ u w₂,
    HasValue (callWithin limit remaining) env n w (.closure c) w₁ → env < w₁.store.next →
    HasValue (callWithin limit remaining) env (.assignment (.var x) n) w u w₂ →
    u = .closure c ∧ HasValue (callWithin limit remaining) env (.var x) w₂ (.closure c) w₂
  /-- A parameter is the closure that was passed for it. -/
  parameter  : ∀ (f : Closure) args i p w scope w', f.params[i]? = some p →
    p ∉ f.params.drop (i + 1) → args[i]? = some (.closure c) →
    (enterClosure f args).runIn w = (.ok scope, w') →
    HasValue (callWithin limit remaining) scope (.var p) w' (.closure c) w'
  /-- A call gives the closure that the body gives. -/
  result     : ∀ (f : Closure) args w scope w₁ w₂,
    (enterClosure f args).runIn w = (.ok scope, w₁) →
    HasValue (callWithin limit remaining) scope f.body w₁ (.closure c) w₂ →
    (callWithin limit (remaining + 1) (.closure f) args).runIn w = (.ok (.closure c), w₂)
  /-- A disjunction gives the closure on its left, without looking at the right. -/
  or_left    : ∀ env l r w w₁, HasValue (callWithin limit remaining) env l w (.closure c) w₁ →
    HasValue (callWithin limit remaining) env (.binary .or l r) w (.closure c) w₁
  /-- A disjunction gives the closure on its right if the left is false. -/
  or_right   : ∀ env l r w v w₁ w₂, HasValue (callWithin limit remaining) env l w v w₁ →
    v.isFalse = true → HasValue (callWithin limit remaining) env r w₁ (.closure c) w₂ →
    HasValue (callWithin limit remaining) env (.binary .or l r) w (.closure c) w₂
  /-- A conjunction gives the closure on its right if the left is not false. -/
  and_right  : ∀ env l r w v w₁ w₂, HasValue (callWithin limit remaining) env l w v w₁ →
    v.isFalse = false → HasValue (callWithin limit remaining) env r w₁ (.closure c) w₂ →
    HasValue (callWithin limit remaining) env (.binary .and l r) w (.closure c) w₂
  /-- A conditional gives the closure that the branch it takes gives. -/
  branch_yes : ∀ env test yes no w v w₁ w₂,
    HasValue (callWithin limit remaining) env test w v w₁ → v.isFalse = false →
    HasValue (callWithin limit remaining) env yes w₁ (.closure c) w₂ →
    HasValue (callWithin limit remaining) env (.condition test yes no) w (.closure c) w₂
  branch_no  : ∀ env test yes no w v w₁ w₂,
    HasValue (callWithin limit remaining) env test w v w₁ → v.isFalse = true →
    HasValue (callWithin limit remaining) env no w₁ (.closure c) w₂ →
    HasValue (callWithin limit remaining) env (.condition test yes (some no)) w (.closure c) w₂
  /-- A native function calls with the very arguments that it chooses, and goes on with the very
  result of the call. -/
  handed     : ∀ f args next w,
    (runScript (callWithin limit remaining) (.call f args next)).runIn w =
    (runScript (callWithin limit remaining)
      (next ((callWithin limit remaining f args).runIn w).1)).runIn
        ((callWithin limit remaining f args).runIn w).2
  /-- A call of a native function gives the closure that it ends with. -/
  native     : ∀ (f : Native) body args w w', w.natives[f.id]? = some body →
    (runScript (callWithin limit remaining) (body args)).runIn w = (.ok (.closure c), w') →
    (callWithin limit (remaining + 1) (.native f) args).runIn w = (.ok (.closure c), w')

section Rules

variable {call : Caller} {env : FrameId} {w w₁ w₂ : World} {u v : Value}

theorem HasValue.var {x : String} (h : w.store.get? env x = some v) :
    HasValue call env (.var x) w v w := by
  unfold HasValue
  rw [evalNode, EvalM.runIn_ofStep, h]

theorem HasValue.assigned {x : String} {n : Node} (h : HasValue call env n w v w₁)
    (hEnv : env < w₁.store.next) (hWhole : HasValue call env (.assignment (.var x) n) w u w₂) :
    u = v ∧ HasValue call env (.var x) w₂ v w₂ := by
  unfold HasValue at h hWhole
  rw [evalNode, EvalM.runIn_bind, h] at hWhole
  exact ⟨eq_of_assign_ok w₁ env x v u (congrArg Prod.fst hWhole), .var (get?_assign hEnv hWhole)⟩

theorem HasValue.shortcut {op : BinaryOp} {l r : Node} (h : HasValue call env l w u w₁)
    (hShort : op.shortcut? u = some v) : HasValue call env (.binary op l r) w v w₁ := by
  unfold HasValue at h ⊢
  rw [evalNode, EvalM.runIn_bind, h]
  simp only [hShort, EvalM.runIn_pure]

theorem HasValue.apply {op : BinaryOp} {l r : Node} {a : Value} (h : HasValue call env l w u w₁)
    (hShort : op.shortcut? u = none) (hRight : HasValue call env r w₁ v w₂)
    (hApply : op.apply u v = .ok a) : HasValue call env (.binary op l r) w a w₂ := by
  unfold HasValue at h hRight ⊢
  rw [evalNode, EvalM.runIn_bind, h]
  simp only [hShort]
  rw [EvalM.runIn_bind, hRight]
  simp only [EvalM.runIn_ofStep, hApply]

theorem HasValue.yes {test yes : Node} {no : Option Node} (h : HasValue call env test w u w₁)
    (hTrue : u.isFalse = false) (hYes : HasValue call env yes w₁ v w₂) :
    HasValue call env (.condition test yes no) w v w₂ := by
  unfold HasValue at h hYes ⊢
  rw [evalNode, EvalM.runIn_bind, h]
  simp only [hTrue]
  exact hYes

theorem HasValue.no {test yes no : Node} (h : HasValue call env test w u w₁)
    (hFalse : u.isFalse = true) (hNo : HasValue call env no w₁ v w₂) :
    HasValue call env (.condition test yes (some no)) w v w₂ := by
  unfold HasValue at h hNo ⊢
  rw [evalNode, EvalM.runIn_bind, h]
  simp only [hFalse, if_true, evalElse]
  exact hNo

end Rules

/-- **Every closure is conveyed.** -/
theorem conveys_closure (limit remaining : Nat) (c : Closure) : Conveys limit remaining c where
  self := beq_self_eq_true c.id
  assignment _ _ _ _ _ _ _ hValue hEnv hWhole := hValue.assigned hEnv hWhole
  parameter f args i p w scope w' hParam hLast hArg hEnter := by
    cases hEnter
    refine .var ?_
    have hBound := lookup_bindParams hParam hLast hArg []
    have hFrame : (w.store.add ⟨bindParams [] f.params args, some f.env⟩).frame? w.store.next =
        some ⟨bindParams [] f.params args, some f.env⟩ := by
      rw [Store.frame?_add, if_pos rfl]
    have hBinder : (w.store.add ⟨bindParams [] f.params args, some f.env⟩).binder? w.store.next p =
        some w.store.next := by
      rw [Store.binder?, Store.binderFrom, hFrame]
      simp [Frame.binds, Frame.get?, hBound]
    change (w.store.add ⟨bindParams [] f.params args, some f.env⟩).get? w.store.next p = _
    rw [Store.get?, hBinder, Option.bind_some, hFrame]
    exact hBound
  result f args w scope w₁ w₂ hEnter hBody := by
    rw [callWithin, EvalM.runIn_bind, hEnter]
    exact hBody
  or_left _ _ _ _ _ hLeft := hLeft.shortcut rfl
  or_right env l r w v w₁ w₂ hLeft hFalse hRight := by
    refine hLeft.apply ?_ hRight ?_
    · simp only [BinaryOp.shortcut?, hFalse, if_true]
    · simp only [BinaryOp.apply, hFalse, if_true]
  and_right env l r w v w₁ w₂ hLeft hTrue hRight := by
    refine hLeft.apply ?_ hRight ?_
    · simp [BinaryOp.shortcut?, hTrue]
    · simp [BinaryOp.apply, hTrue]
  branch_yes _ _ _ _ _ _ _ _ hTest hTrue hYes := hTest.yes hTrue hYes
  branch_no _ _ _ _ _ _ _ _ hTest hFalse hNo := hTest.no hFalse hNo
  handed _ _ _ _ := rfl
  native f body args w w' hNative hScript := by
    rw [callWithin, EvalM.runIn_ofStep, hNative]
    exact hScript

end Zaban
