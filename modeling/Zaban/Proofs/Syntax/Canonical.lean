import Zaban.Proofs.Syntax.Outermost

/-!
# The written form of what is read

A tree has many spellings, and one of them is written. It is no deeper than the
spelling that the tree was read from (`ofStored_writable`): the members that are
fields of the form are kept, everything else is left out, an array in the place
of an object is as deep as the object, and an operator that was an object
becomes a string. The numbers of the tree are among those of the text, so they
are finite.

The argument follows the shape of the value. A value of depth `d` with finite
numbers is, as a node or as a list of nodes, no deeper than `d`
(`Part.Sound`), and a node of any form whose fields hold such values is one
deeper (`Form.node?_writable`).
-/

namespace Zaban

open Json (itemsDepth membersDepth)

-- ----------------------------------------------------------------------------
-- Trees that can be written
-- ----------------------------------------------------------------------------

/-- The tree is written at most `d` deep, with finite numbers. -/
structure Node.Writable (d : Nat) (n : Node) : Prop where
  depth_le : n.toJson.depth ≤ d
  finite   : ∀ x ∈ n.numbers, isFinite x = true

/-- What a value is as a node or as a list of nodes is written no deeper than the value. -/
structure Part.Sound (d : Nat) (p : Part) : Prop where
  depth_le : p.json.depth ≤ d
  finite   : p.json.AllFinite
  node     : ∀ {n}, p.node? = some n → n.Writable d
  nodes    : ∀ {ns}, p.nodes? = some ns →
    itemsDepth (Node.toJsons ns) + 1 ≤ d ∧ ∀ x ∈ Node.allNumbers ns, isFinite x = true

section Fields

variable {d : Nat} {p : Part}

theorem Form.depth_object (form : Form) (members : List (String × Json)) :
    (form.object members).depth = membersDepth members + 1 := by
  simp [Form.object, Json.depth, membersDepth]

theorem itemsDepth_strings (xs : List String) : itemsDepth (xs.map .string) = 0 := by
  induction xs with
  | nil => rfl
  | cons x xs ih =>
    rw [List.map_cons, itemsDepth, ih]
    rfl

theorem Part.Sound.number (h : p.Sound d) {x : Float} (hx : p.number? = some x) :
    isFinite x = true := by
  have hFinite := h.finite
  unfold Part.number? at hx
  split at hx
  · rename_i n hJson
    obtain rfl := Option.some.inj hx
    rw [hJson] at hFinite
    cases hFinite with
    | integer hn => exact hn
  · rename_i y hJson
    obtain rfl := Option.some.inj hx
    rw [hJson] at hFinite
    cases hFinite with
    | real hy => exact hy
  · cases hx

/-- Texts are the items of an array. -/
theorem Part.Sound.strings (h : p.Sound d) {xs : List String} (hxs : p.strings? = some xs) :
    1 ≤ d := by
  have hDepth := h.depth_le
  unfold Part.strings? at hxs
  split at hxs
  · rename_i items hJson
    rw [hJson, Json.depth] at hDepth
    omega
  · cases hxs

theorem Part.Sound.optional {field : Option Part} (h : ∀ p ∈ field, p.Sound d)
    {no : Option Node} (hNo : Part.optional? field = some no) :
    membersDepth (Node.elseMember no) ≤ d ∧
      ∀ x ∈ Node.optionNumbers no, isFinite x = true := by
  have hNone : membersDepth (Node.elseMember none) ≤ d ∧
      ∀ x ∈ Node.optionNumbers none, isFinite x = true :=
    ⟨Nat.zero_le d, by rintro _ ⟨⟩⟩
  cases field with
  | none =>
    obtain rfl := Option.some.inj hNo
    exact hNone
  | some p =>
    unfold Part.optional? at hNo
    simp only at hNo
    split at hNo
    · obtain rfl := Option.some.inj hNo
      exact hNone
    · obtain ⟨n, hNode, rfl⟩ := Option.map_eq_some_iff.mp hNo
      have hn := (h p rfl).node hNode
      exact ⟨Nat.max_le.mpr ⟨hn.depth_le, Nat.zero_le d⟩, hn.finite⟩

theorem Node.writable_of_members {n : Node} (hDepth : membersDepth n.members ≤ d)
    (hFinite : ∀ x ∈ n.numbers, isFinite x = true) : n.Writable (d + 1) := by
  refine ⟨?_, hFinite⟩
  rw [n.toJson_eq, Form.depth_object]
  exact Nat.succ_le_succ hDepth

/-- **A node is one deeper than its fields.** -/
theorem Form.node?_writable {form : Form} {field : String → Option Part} {n : Node}
    (hField : ∀ f, ∀ p ∈ field f, p.Sound d) (h : form.node? field = some n) :
    n.Writable (d + 1) := by
  cases form with
  | program =>
    simp only [Form.node?, bind, pure, Option.bind_eq_some_iff, Option.some.injEq] at h
    obtain ⟨p, hp, body, hBody, rfl⟩ := h
    obtain ⟨hDepth, hFinite⟩ := (hField _ p hp).nodes hBody
    exact Node.writable_of_members (Nat.max_le.mpr ⟨hDepth, Nat.zero_le d⟩) hFinite
  | assignment =>
    simp only [Form.node?, bind, pure, Option.bind_eq_some_iff, Option.some.injEq] at h
    obtain ⟨p, hp, target, hTarget, q, hq, value, hValue, rfl⟩ := h
    have ht := (hField _ p hp).node hTarget
    have hv := (hField _ q hq).node hValue
    refine Node.writable_of_members ?_ (List.forall_mem_append.mpr ⟨ht.finite, hv.finite⟩)
    simp [Node.members, membersDepth, ht.depth_le, hv.depth_le]
  | binary =>
    simp only [Form.node?, bind, pure, Option.bind_eq_some_iff, Option.some.injEq] at h
    obtain ⟨_, -, op, -, p, hp, left, hLeft, q, hq, right, hRight, rfl⟩ := h
    have hl := (hField _ p hp).node hLeft
    have hr := (hField _ q hq).node hRight
    refine Node.writable_of_members ?_ (List.forall_mem_append.mpr ⟨hl.finite, hr.finite⟩)
    simp [Node.members, membersDepth, Json.depth, hl.depth_le, hr.depth_le]
  | condition =>
    simp only [Form.node?, bind, pure, Option.bind_eq_some_iff, Option.some.injEq] at h
    obtain ⟨p, hp, test, hTest, q, hq, yes, hYes, no, hNo, rfl⟩ := h
    have ht := (hField _ p hp).node hTest
    have hy := (hField _ q hq).node hYes
    obtain ⟨hn, hn'⟩ := Part.Sound.optional (hField "else") hNo
    refine Node.writable_of_members ?_ (List.forall_mem_append.mpr
      ⟨ht.finite, List.forall_mem_append.mpr ⟨hy.finite, hn'⟩⟩)
    simp [Node.members, membersDepth, ht.depth_le, hy.depth_le, hn]
  | lambda =>
    simp only [Form.node?, bind, pure, Option.bind_eq_some_iff, Option.some.injEq] at h
    obtain ⟨p, hp, params, hParams, q, hq, body, hBody, rfl⟩ := h
    have hArray := (hField _ p hp).strings hParams
    have hb := (hField _ q hq).node hBody
    refine Node.writable_of_members ?_ hb.finite
    simp [Node.members, membersDepth, Json.depth, itemsDepth_strings, hArray, hb.depth_le]
  | call =>
    simp only [Form.node?, bind, pure, Option.bind_eq_some_iff, Option.some.injEq] at h
    obtain ⟨p, hp, callee, hCallee, q, hq, args, hArgs, rfl⟩ := h
    have hc := (hField _ p hp).node hCallee
    obtain ⟨ha, ha'⟩ := (hField _ q hq).nodes hArgs
    refine Node.writable_of_members ?_ (List.forall_mem_append.mpr ⟨hc.finite, ha'⟩)
    simp [Node.members, membersDepth, Json.depth, hc.depth_le, ha]
  | number =>
    simp only [Form.node?, bind, pure, Option.bind_eq_some_iff, Option.some.injEq] at h
    obtain ⟨p, hp, value, hValue, rfl⟩ := h
    have hFinite := (hField _ p hp).number hValue
    refine Node.writable_of_members ?_ (List.forall_mem_singleton.mpr hFinite)
    simp only [Node.members, membersDepth, Json.ofFloat]
    split <;> simp [Json.depth]
  | var | string | bool =>
    simp only [Form.node?, bind, pure, Option.bind_eq_some_iff, Option.some.injEq] at h
    obtain ⟨_, -, value, -, rfl⟩ := h
    exact Node.writable_of_members (by simp [Node.members, membersDepth, Json.depth])
      (by rintro _ ⟨⟩)

theorem mem_of_lookup {α : Type} {key : String} {x : α} {xs : List (String × α)}
    (h : xs.lookup key = some x) : (key, x) ∈ xs := by
  obtain ⟨_, _, rfl, -⟩ := List.lookup_eq_some_iff.mp h
  simp

theorem Form.ofMembers?_writable {form : Form} {members : List (String × Part)} {n : Node}
    (hMembers : ∀ m ∈ members, m.2.Sound d) (h : form.ofMembers? members = some n) :
    n.Writable (d + 1) := by
  simp only [Form.ofMembers?] at h
  split at h
  · refine Form.node?_writable ?_ h
    intro f p hp
    exact hMembers _ (mem_of_lookup hp)
  · cases h

theorem Form.ofItems?_writable {form : Form} {items : List Part} {n : Node}
    (hItems : ∀ p ∈ items, p.Sound d) (h : form.ofItems? items = some n) :
    n.Writable (d + 1) := by
  simp only [Form.ofItems?] at h
  split at h
  · refine Form.node?_writable ?_ h
    intro f p hp
    exact hItems p (List.of_mem_zip (mem_of_lookup hp)).2
  · cases h

end Fields

-- ----------------------------------------------------------------------------
-- Values
-- ----------------------------------------------------------------------------

theorem Json.AllFinite.items {items : List Json} (h : (Json.array items).AllFinite) :
    ∀ x ∈ items, x.AllFinite := by
  cases h with
  | array h => exact h

theorem Json.AllFinite.members {members : List (String × Json)}
    (h : (Json.object members).AllFinite) : ∀ m ∈ members, m.2.AllFinite := by
  cases h with
  | object h => exact h

namespace Part

theorem Sound.mono {d e : Nat} {p : Part} (h : p.Sound d) (hLe : d ≤ e) : p.Sound e where
  depth_le := h.depth_le.trans hLe
  finite := h.finite
  node hn := ⟨(h.node hn).depth_le.trans hLe, (h.node hn).finite⟩
  nodes hns := ⟨(h.nodes hns).1.trans hLe, (h.nodes hns).2⟩

/-- Parts that are all nodes are a list of nodes. -/
theorem nodes_writable {d : Nat} {parts : List Part} (hParts : ∀ p ∈ parts, p.Sound d)
    {ns : List Node} (h : parts.mapM Part.node? = some ns) :
    itemsDepth (Node.toJsons ns) ≤ d ∧ ∀ x ∈ Node.allNumbers ns, isFinite x = true := by
  induction parts generalizing ns with
  | nil =>
    obtain rfl : [] = ns := Option.some.inj h
    exact ⟨Nat.zero_le d, by rintro _ ⟨⟩⟩
  | cons p parts ih =>
    simp only [List.mapM_cons, bind, pure, Option.bind_eq_some_iff, Option.some.injEq] at h
    obtain ⟨n, hn, ms, hms, rfl⟩ := h
    have hHead := (hParts p List.mem_cons_self).node hn
    obtain ⟨hDepth, hFinite⟩ := ih (fun q hq => hParts q (List.mem_cons_of_mem p hq)) hms
    exact ⟨Nat.max_le.mpr ⟨hHead.depth_le, hDepth⟩,
      List.forall_mem_append.mpr ⟨hHead.finite, hFinite⟩⟩

mutual

/-- **Every value with finite numbers is sound.** -/
theorem ofJson_sound : ∀ {j : Json}, j.AllFinite → (Part.ofJson j).Sound j.depth
  | .array items, h => by
    have hItems := ofItems_sound items h.items
    refine ⟨Nat.le_refl _, h, fun hn => ?_, fun hns => ?_⟩
    · change Node.ofItems? (Part.ofItems items) = some _ at hn
      cases hParts : Part.ofItems items with
      | nil =>
        rw [hParts] at hn
        cases hn
      | cons tag rest =>
        rw [hParts] at hn hItems
        obtain ⟨form, -, hForm⟩ := Option.bind_eq_some_iff.mp hn
        exact Form.ofItems?_writable (fun p hp => hItems p (List.mem_cons_of_mem tag hp)) hForm
    · obtain ⟨hDepth, hFinite⟩ := nodes_writable hItems hns
      exact ⟨Nat.succ_le_succ hDepth, hFinite⟩
  | .object members, h => by
    have hMembers := ofMembers_sound members h.members
    refine ⟨Nat.le_refl _, h, fun hn => ?_, by rintro _ ⟨⟩⟩
    change Node.ofMembers? (Part.ofMembers members) = some _ at hn
    unfold Node.ofMembers? at hn
    split at hn
    · rename_i tag rest hSplit
      obtain ⟨form, -, hForm⟩ := Option.bind_eq_some_iff.mp hn
      refine Form.ofMembers?_writable (fun m hm => hMembers m ?_) hForm
      rw [List.partition_eq_filter_filter] at hSplit
      rw [← (Prod.mk.inj hSplit).2] at hm
      exact (List.mem_filter.mp hm).1
    · cases hn
  | .null, h | .bool _, h | .integer _, h | .real _, h | .string _, h =>
    ⟨Nat.zero_le _, h, by rintro _ ⟨⟩, by rintro _ ⟨⟩⟩

theorem ofItems_sound : ∀ items : List Json, (∀ x ∈ items, x.AllFinite) →
    ∀ p ∈ Part.ofItems items, p.Sound (itemsDepth items)
  | [], _ => by rintro _ ⟨⟩
  | x :: xs, h => by
    have hHead := ofJson_sound (h x List.mem_cons_self)
    have hTail := ofItems_sound xs fun y hy => h y (List.mem_cons_of_mem x hy)
    intro p hp
    rcases List.mem_cons.mp hp with rfl | hp
    · exact hHead.mono (Nat.le_max_left ..)
    · exact (hTail p hp).mono (Nat.le_max_right ..)

theorem ofMembers_sound : ∀ members : List (String × Json), (∀ m ∈ members, m.2.AllFinite) →
    ∀ m ∈ Part.ofMembers members, m.2.Sound (membersDepth members)
  | [], _ => by rintro _ ⟨⟩
  | (key, x) :: rest, h => by
    have hHead := ofJson_sound (h (key, x) List.mem_cons_self)
    have hTail := ofMembers_sound rest fun y hy => h y (List.mem_cons_of_mem _ hy)
    intro m hm
    rcases List.mem_cons.mp hm with rfl | hm
    · exact hHead.mono (Nat.le_max_left ..)
    · exact (hTail m hm).mono (Nat.le_max_right ..)

end

end Part

/-- **A tree is written no deeper than the text that it is read from**, with finite numbers. -/
theorem Node.ofStored_writable {text : String} {n : Node} (h : Node.ofStored text = .ok n) :
    n.Writable (Json.nesting text) ∧ Json.nesting text ≤ Json.nestingLimit := by
  obtain ⟨j, hText, -, hDeep, hNode⟩ := Node.ofStored_iff.mp h
  rw [hText.nesting_eq]
  exact ⟨(Part.ofJson_sound hText.allFinite).node hNode, hDeep⟩

end Zaban
