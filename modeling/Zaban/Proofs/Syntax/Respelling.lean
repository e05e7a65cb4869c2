import Mathlib.Data.List.Nodup
import Zaban.Proofs.Json.Converting
import Zaban.Proofs.Syntax.Canonical

/-!
# The spellings of a tree

The reader takes a tree in many spellings. `Node.Spells` says which: every node
of a tree is an object, with its members in any order and with any other members
between them, or an array of its form and its fields; an operator is a text or
an object; a branch that is absent is left out or is nothing. The choice is made
at each node on its own. White space is free in every spelling of a value.

All of them are read as the same tree (`respelled_texts_read_alike`). What is
written is one of them.
-/

namespace Zaban

open Json (reread)

-- ----------------------------------------------------------------------------
-- Spellings
-- ----------------------------------------------------------------------------

/-- The spellings of an operator: its symbol, or an object with the symbol as its only key. -/
inductive BinaryOp.Spells (op : BinaryOp) : Json → Prop where
  | symbol : op.Spells (.string op.symbol)
  | object : op.Spells (.object [(op.symbol, .null)])

namespace Node

mutual

/-- The value is a spelling of the tree. -/
inductive Spells : Node → Json → Prop where
  /-- An object with the form and the fields in any order, among members with other keys. -/
  | object {n : Node} {fields extra members : List (String × Json)} (hFields : FieldsSpell n fields)
      (hExtra : ∀ m ∈ extra, m.1 ≠ formKey ∧ m.1 ∉ n.form.fields)
      (hMembers : members.Perm (n.form.tag :: (fields ++ extra))) : Spells n (.object members)
  /-- An array of the form and the fields in their order. -/
  | array {n : Node} {fields : List (String × Json)} (hFields : FieldsSpell n fields) :
      Spells n (.array (.string n.form.name :: fields.map Prod.snd))

/-- The fields of a tree, in the order of its form, with spellings of what they hold. A number is
what the reader makes of its written text. -/
inductive FieldsSpell : Node → List (String × Json) → Prop where
  | program {body : List Node} {items : List Json} (hBody : AllSpell body items) :
      FieldsSpell (program body) [("program", .array items)]
  | assignment {target value : Node} {t v : Json} (hTarget : Spells target t)
      (hValue : Spells value v) : FieldsSpell (assignment target value) [("left", t), ("right", v)]
  | binary {op : BinaryOp} {left right : Node} {o l r : Json} (hOp : op.Spells o)
      (hLeft : Spells left l) (hRight : Spells right r) :
      FieldsSpell (binary op left right) [("operator", o), ("left", l), ("right", r)]
  | condition {test yes : Node} {no : Option Node} {t y : Json} {fields : List (String × Json)}
      (hTest : Spells test t) (hYes : Spells yes y) (hNo : ElseSpells no fields) :
      FieldsSpell (condition test yes no) (("cond", t) :: ("then", y) :: fields)
  | lambda {params : List String} {body : Node} {b : Json} (hBody : Spells body b) :
      FieldsSpell (lambda params body) [("vars", .array (params.map .string)), ("body", b)]
  | call {callee : Node} {args : List Node} {c : Json} {items : List Json}
      (hCallee : Spells callee c) (hArgs : AllSpell args items) :
      FieldsSpell (call callee args) [("func", c), ("args", .array items)]
  | var (name : String) : FieldsSpell (var name) [("value", .string name)]
  | number (x : Float) : FieldsSpell (number x) [("value", .real (reread x))]
  | string (s : String) : FieldsSpell (string s) [("value", .string s)]
  | boolean (b : Bool) : FieldsSpell (boolean b) [("value", .bool b)]

/-- The second branch of a conditional; one that is absent is left out or is nothing. -/
inductive ElseSpells : Option Node → List (String × Json) → Prop where
  | omitted : ElseSpells none []
  | nothing : ElseSpells none [("else", .null)]
  | branch {x : Node} {j : Json} (h : Spells x j) : ElseSpells (some x) [("else", j)]

/-- Spellings of trees one by one. -/
inductive AllSpell : List Node → List Json → Prop where
  | nil : AllSpell [] []
  | cons {x : Node} {xs : List Node} {j : Json} {js : List Json} (hHead : Spells x j)
      (hTail : AllSpell xs js) : AllSpell (x :: xs) (j :: js)

end

/-- The text is a spelling of the tree. -/
def Respelled (n : Node) (text : String) : Prop :=
  ∃ j, n.Spells j ∧ j.SpelledBy text

end Node

-- ----------------------------------------------------------------------------
-- The order of the members
-- ----------------------------------------------------------------------------

section Order

variable {α : Type} {members fields extra : List (String × α)}

theorem lookup_eq_head? (key : String) (xs : List (String × α)) :
    xs.lookup key = (xs.filter (·.1 == key)).head?.map Prod.snd := by
  induction xs with
  | nil => rfl
  | cons x xs ih =>
    by_cases hKey : x.1 = key
    · rw [List.filter_cons_of_pos (by simp [hKey]), List.lookup_cons, hKey]
      simp
    · rw [List.filter_cons_of_neg (by simp [hKey]), List.lookup_cons,
        beq_false_of_ne (Ne.symm hKey), ih]

theorem count_key (key : String) (xs : List (String × α)) :
    (xs.map Prod.fst).count key = (xs.filter (·.1 == key)).length := by
  rw [List.count, List.countP_map, List.countP_eq_length_filter]
  rfl

theorem eq_of_perm {xs ys : List α} (h : xs.Perm ys) (hLength : ys.length ≤ 1) : xs = ys := by
  match ys with
  | [] => exact h.eq_nil
  | [_] => exact List.perm_singleton.mp h

/-- The members with a key: those with other keys do not matter, nor does the order. -/
theorem filter_key_of_perm (hPerm : members.Perm (fields ++ extra))
    (hNodup : (fields.map Prod.fst).Nodup) {key : String} (hKey : ∀ m ∈ extra, m.1 ≠ key) :
    members.filter (·.1 == key) = fields.filter (·.1 == key) := by
  have hNone : extra.filter (·.1 == key) = [] :=
    List.filter_eq_nil_iff.mpr fun m hm => by simp [hKey m hm]
  have hSame := hPerm.filter (·.1 == key)
  rw [List.filter_append, hNone, List.append_nil] at hSame
  have hOnce := List.nodup_iff_count_le_one.mp hNodup key
  rw [count_key] at hOnce
  exact eq_of_perm hSame hOnce

end Order

theorem Form.node?_congr {form : Form} {field field' : String → Option Part}
    (h : ∀ f ∈ form.fields, field f = field' f) : form.node? field = form.node? field' := by
  cases form <;> simp only [Form.fields, List.forall_mem_cons] at h <;> simp [Form.node?, h]

/-- A node is made of its fields, in whatever order they stand and whatever stands between them. -/
theorem Form.ofMembers?_of_perm {form : Form} {members fields extra : List (String × Part)}
    (hPerm : members.Perm (fields ++ extra)) (hNodup : (fields.map Prod.fst).Nodup)
    (hExtra : ∀ m ∈ extra, m.1 ∉ form.fields) :
    form.ofMembers? members = form.node? fun f => List.lookup f fields := by
  have hFilter : ∀ f ∈ form.fields, members.filter (·.1 == f) = fields.filter (·.1 == f) :=
    fun f hf => filter_key_of_perm hPerm hNodup fun m hm hEq => hExtra m hm (hEq ▸ hf)
  have hOnce : (form.fields.all fun f => (members.map Prod.fst).count f ≤ 1) = true := by
    rw [List.all_eq_true]
    intro f hf
    rw [count_key, hFilter f hf, ← count_key]
    exact decide_eq_true (List.nodup_iff_count_le_one.mp hNodup f)
  rw [Form.ofMembers?, if_pos hOnce]
  refine Form.node?_congr fun f hf => ?_
  rw [lookup_eq_head?, lookup_eq_head?, hFilter f hf]

theorem zip_ofItems {fields : List (String × Json)} {keys : List String}
    (h : fields.map Prod.fst <+: keys) :
    keys.zip (Part.ofItems (fields.map Prod.snd)) = Part.ofMembers fields := by
  induction fields generalizing keys with
  | nil => exact List.zip_nil_right
  | cons m fields ih =>
    obtain ⟨rest, rfl⟩ := h
    rw [List.map_cons, List.map_cons, List.cons_append, Part.ofItems, List.zip_cons_cons,
      ih (List.prefix_append _ rest)]
    rfl

theorem length_ofItems (items : List Json) : (Part.ofItems items).length = items.length := by
  induction items with
  | nil => rfl
  | cons x xs ih => rw [Part.ofItems, List.length_cons, ih, List.length_cons]

/-- A node is made of its fields if they stand in their order in an array. -/
theorem Form.ofItems?_of_keys {form : Form} {fields : List (String × Json)}
    (hKeys : fields.map Prod.fst <+: form.fields) :
    form.ofItems? (Part.ofItems (fields.map Prod.snd)) =
      form.node? fun f => List.lookup f (Part.ofMembers fields) := by
  have hLength : (Part.ofItems (fields.map Prod.snd)).length ≤ form.fields.length := by
    have hLe := hKeys.length_le
    rw [List.length_map] at hLe
    rw [length_ofItems, List.length_map]
    exact hLe
  rw [Form.ofItems?, if_pos hLength, zip_ofItems hKeys]

-- ----------------------------------------------------------------------------
-- Every spelling is read as the tree
-- ----------------------------------------------------------------------------

theorem Form.fields_nodup (form : Form) : form.fields.Nodup := by
  cases form <;> decide

theorem Form.formKey_notMem_fields (form : Form) : formKey ∉ form.fields := by
  cases form <;> decide

theorem Part.ofMembers_eq_map (members : List (String × Json)) :
    Part.ofMembers members = members.map fun m => (m.1, Part.ofJson m.2) := by
  induction members with
  | nil => rfl
  | cons m ms ih => rw [Part.ofMembers, ih, List.map_cons]

theorem BinaryOp.Spells.operator? {op : BinaryOp} {j : Json} (h : op.Spells j) :
    (Part.ofJson j).operator? = some op := by
  have hSymbol := BinaryOp.ofSymbol?_symbol op
  cases h with
  | symbol => exact hSymbol
  | object => exact hSymbol

namespace Node

section Fields

variable {n t : Node} {fields : List (String × Json)} {j : Json}

theorem FieldsSpell.keys (h : FieldsSpell n fields) : fields.map Prod.fst <+: n.form.fields := by
  cases h with
  | condition _ _ hNo => cases hNo <;> simp [form, Form.fields]
  | _ => simp [form, Form.fields]

theorem FieldsSpell.keys_nodup (h : FieldsSpell n fields) : (fields.map Prod.fst).Nodup :=
  n.form.fields_nodup.sublist h.keys.sublist

/-- The only member for the form is the one of the tree. -/
theorem FieldsSpell.tags {extra members : List (String × Json)} (h : FieldsSpell n fields)
    (hExtra : ∀ m ∈ extra, m.1 ≠ formKey ∧ m.1 ∉ n.form.fields)
    (hMembers : members.Perm (n.form.tag :: (fields ++ extra))) :
    members.filter (·.1 == formKey) = [n.form.tag] ∧
      (members.filter (·.1 != formKey)).Perm (fields ++ extra) := by
  have hOthers : ∀ m ∈ fields ++ extra, m.1 ≠ formKey := by
    refine List.forall_mem_append.mpr ⟨fun m hm hEq => ?_, fun m hm => (hExtra m hm).1⟩
    have hKey := h.keys.subset (List.mem_map_of_mem hm)
    rw [hEq] at hKey
    exact n.form.formKey_notMem_fields hKey
  have hNone : (fields ++ extra).filter (·.1 == formKey) = [] :=
    List.filter_eq_nil_iff.mpr fun m hm => by simp [hOthers m hm]
  have hAll : (fields ++ extra).filter (·.1 != formKey) = fields ++ extra :=
    List.filter_eq_self.mpr fun m hm => by simp [hOthers m hm]
  constructor
  · have hFilter := hMembers.filter (·.1 == formKey)
    rw [List.filter_cons_of_pos (by rfl), hNone] at hFilter
    exact List.perm_singleton.mp hFilter
  · have hFilter := hMembers.filter (·.1 != formKey)
    rwa [List.filter_cons_of_neg (by simp [Form.tag]), hAll] at hFilter

theorem Spells.titled (h : n.Spells j) : j.Titled := by
  cases h with
  | object hFields hExtra hMembers => exact .object (hFields.tags hExtra hMembers).1
  | array => exact .array _ _

/-- A spelling is the tree that its fields make. -/
theorem Spells.node?_of_fields (h : n.Spells j)
    (hNode : ∀ {fields}, FieldsSpell n fields →
      n.form.node? (fun f => List.lookup f (Part.ofMembers fields)) = some t) :
    (Part.ofJson j).node? = some t := by
  cases h with
  | object hFields hExtra hMembers =>
    obtain ⟨hTag, hRest⟩ := hFields.tags hExtra hMembers
    have hParts := hRest.map fun m => (m.1, Part.ofJson m.2)
    rw [← Part.ofMembers_eq_map, List.map_append, ← Part.ofMembers_eq_map] at hParts
    rw [Part.node?_of_tag hTag, Form.ofMembers?_of_perm hParts ?_ ?_, hNode hFields]
    · rw [Part.ofMembers_keys]
      exact hFields.keys_nodup
    · intro m hm
      obtain ⟨m', hm', rfl⟩ := List.mem_map.mp hm
      exact (hExtra m' hm').2
  | array hFields =>
    rw [Part.node?_array, Form.ofItems?_of_keys hFields.keys, hNode hFields]

/-- A branch that is there is not nothing. -/
theorem Spells.optional? (h : n.Spells j) (hNode : (Part.ofJson j).node? = some t) :
    Part.optional? (some (Part.ofJson j)) = some (some t) := by
  cases h with
  | object | array =>
    show (Part.ofJson _).node?.map some = _
    rw [hNode]
    rfl

end Fields

mutual

/-- **The fields of a tree make the tree**, however they are spelled. -/
theorem FieldsSpell.node? : ∀ (n : Node) {fields : List (String × Json)}, FieldsSpell n fields →
    n.form.node? (fun f => List.lookup f (Part.ofMembers fields)) = some (n.mapNumbers reread)
  | .program body, _, h => by
    cases h with
    | program hBody =>
      have hNodes := AllSpell.nodes? body hBody
      show ((Part.ofItems _).mapM Part.node? >>= fun xs => pure (program xs)) = _
      rw [hNodes]
      rfl
  | .assignment target value, _, h => by
    cases h with
    | assignment hTarget hValue =>
      have ht := hTarget.node?_of_fields (FieldsSpell.node? target)
      have hv := hValue.node?_of_fields (FieldsSpell.node? value)
      show ((Part.ofJson _).node? >>= fun t => (Part.ofJson _).node? >>= fun v =>
        pure (assignment t v)) = _
      rw [ht, hv]
      rfl
  | .binary op left right, _, h => by
    cases h with
    | binary hOp hLeft hRight =>
      have ho := hOp.operator?
      have hl := hLeft.node?_of_fields (FieldsSpell.node? left)
      have hr := hRight.node?_of_fields (FieldsSpell.node? right)
      show ((Part.ofJson _).operator? >>= fun o => (Part.ofJson _).node? >>= fun l =>
        (Part.ofJson _).node? >>= fun r => pure (binary o l r)) = _
      rw [ho, hl, hr]
      rfl
  | .condition test yes no, _, h => by
    cases h with
    | @condition _ _ _ _ _ fields hTest hYes hNo =>
      have ht := hTest.node?_of_fields (FieldsSpell.node? test)
      have hy := hYes.node?_of_fields (FieldsSpell.node? yes)
      have hn := ElseSpells.optional? no hNo
      show ((Part.ofJson _).node? >>= fun t => (Part.ofJson _).node? >>= fun y =>
        Part.optional? (List.lookup "else" (Part.ofMembers fields)) >>= fun n =>
          pure (condition t y n)) = _
      rw [ht, hy, hn]
      rfl
  | .lambda params body, _, h => by
    cases h with
    | lambda hBody =>
      have hp := strings?_strings params
      have hb := hBody.node?_of_fields (FieldsSpell.node? body)
      show ((Part.ofJson (.array (params.map .string))).strings? >>= fun ps =>
        (Part.ofJson _).node? >>= fun b => pure (lambda ps b)) = _
      rw [hp, hb]
      rfl
  | .call callee args, _, h => by
    cases h with
    | call hCallee hArgs =>
      have hc := hCallee.node?_of_fields (FieldsSpell.node? callee)
      have ha := AllSpell.nodes? args hArgs
      show ((Part.ofJson _).node? >>= fun c => (Part.ofItems _).mapM Part.node? >>= fun xs =>
        pure (call c xs)) = _
      rw [hc, ha]
      rfl
  | .var _, _, h | .number _, _, h | .string _, _, h | .boolean _, _, h => by
    cases h
    rfl

theorem AllSpell.nodes? : ∀ (xs : List Node) {items : List Json}, AllSpell xs items →
    (Part.ofItems items).mapM Part.node? = some (mapAll reread xs)
  | [], _, .nil => rfl
  | x :: xs, _, .cons hHead hTail => by
    have hx := hHead.node?_of_fields (FieldsSpell.node? x)
    have hxs := AllSpell.nodes? xs hTail
    rw [Part.ofItems, List.mapM_cons, hx, hxs]
    rfl

theorem ElseSpells.optional? : ∀ (no : Option Node) {fields : List (String × Json)},
    ElseSpells no fields →
      Part.optional? (List.lookup "else" (Part.ofMembers fields)) = some (mapOption reread no)
  | none, _, .omitted => rfl
  | none, _, .nothing => rfl
  | some x, _, .branch h => h.optional? (h.node?_of_fields (FieldsSpell.node? x))

end

-- ----------------------------------------------------------------------------
-- What is written is a spelling
-- ----------------------------------------------------------------------------

theorem ofFloat_of_isFinite {x : Float} (h : isFinite x = true) : Json.ofFloat x = .real x := by
  obtain ⟨_, _, _, hBinary⟩ := exists_finite h
  rw [Json.ofFloat, hBinary]

section Written

open Json (mapReals mapRealsItems mapRealsMembers)

theorem spells_of_fields {n : Node} (h : FieldsSpell n (mapRealsMembers reread n.members)) :
    n.Spells (mapReals reread n.toJson) := by
  rw [mapReals_toJson]
  have hPerm : (n.form.tag :: mapRealsMembers reread n.members).Perm
      (n.form.tag :: (mapRealsMembers reread n.members ++ [])) := by
    rw [List.append_nil]
  exact .object h (by rintro _ ⟨⟩) hPerm

mutual

/-- The fields of a tree as they are written. -/
theorem members_spell : ∀ n : Node, (∀ x ∈ n.numbers, isFinite x = true) →
    FieldsSpell n (mapRealsMembers reread n.members)
  | .program body, h => .program (toJsons_spell body h)
  | .assignment target value, h => by
    obtain ⟨ht, hv⟩ := List.forall_mem_append.mp h
    exact .assignment (spells_of_fields (members_spell target ht))
      (spells_of_fields (members_spell value hv))
  | .binary op left right, h => by
    obtain ⟨hl, hr⟩ := List.forall_mem_append.mp h
    exact .binary .symbol (spells_of_fields (members_spell left hl))
      (spells_of_fields (members_spell right hr))
  | .condition test yes no, h => by
    obtain ⟨ht, hRest⟩ := List.forall_mem_append.mp h
    obtain ⟨hy, hn⟩ := List.forall_mem_append.mp hRest
    exact .condition (spells_of_fields (members_spell test ht))
      (spells_of_fields (members_spell yes hy)) (elseMember_spells no hn)
  | .lambda params body, h => by
    have hBody := spells_of_fields (members_spell body h)
    have hParams : mapReals reread (.array (params.map .string)) = .array (params.map .string) := by
      rw [mapReals, mapRealsItems_strings]
    rw [members, mapRealsMembers, hParams]
    exact .lambda hBody
  | .call callee args, h => by
    obtain ⟨hc, ha⟩ := List.forall_mem_append.mp h
    exact .call (spells_of_fields (members_spell callee hc)) (toJsons_spell args ha)
  | .number value, h => by
    rw [members, ofFloat_of_isFinite (h value (List.mem_singleton.mpr rfl))]
    exact .number value
  | .var name, _ => .var name
  | .string value, _ => .string value
  | .boolean value, _ => .boolean value

theorem toJsons_spell : ∀ xs : List Node, (∀ x ∈ allNumbers xs, isFinite x = true) →
    AllSpell xs (mapRealsItems reread (toJsons xs))
  | [], _ => .nil
  | x :: xs, h => by
    obtain ⟨hx, hxs⟩ := List.forall_mem_append.mp h
    exact .cons (spells_of_fields (members_spell x hx)) (toJsons_spell xs hxs)

theorem elseMember_spells : ∀ no : Option Node, (∀ x ∈ optionNumbers no, isFinite x = true) →
    ElseSpells no (mapRealsMembers reread (elseMember no))
  | none, _ => .omitted
  | some x, h => .branch (spells_of_fields (members_spell x h))

end

theorem fractional_object {form : Form} {members : List (String × Json)}
    (h : ∀ m ∈ members, m.2.Fractional) : (form.object members).Fractional :=
  .object (List.forall_mem_cons.mpr ⟨.string _, h⟩)

theorem fractional_ofFloat (x : Float) : (Json.ofFloat x).Fractional := by
  by_cases hx : isFinite x = true
  · rw [ofFloat_of_isFinite hx]
    exact .real hx
  · unfold isFinite at hx
    unfold Json.ofFloat
    split
    · rename_i hBinary
      rw [hBinary] at hx
      exact absurd rfl hx
    · exact .null

mutual

/-- There are no whole words in a stored tree. -/
theorem toJson_fractional : ∀ n : Node, n.toJson.Fractional
  | .program body => by
    have hBody := toJsons_fractional body
    rw [toJson]
    exact fractional_object (by simpa using .array hBody)
  | .assignment target value | .binary _ target value => by
    have hTarget := toJson_fractional target
    have hValue := toJson_fractional value
    rw [toJson]
    exact fractional_object (by simp [hTarget, hValue, Json.Fractional.string])
  | .condition test yes no => by
    have hTest := toJson_fractional test
    have hYes := toJson_fractional yes
    have hNo := elseMember_fractional no
    rw [toJson]
    exact fractional_object (List.forall_mem_cons.mpr ⟨hTest, List.forall_mem_cons.mpr ⟨hYes, hNo⟩⟩)
  | .lambda params body => by
    have hParams : (Json.array (params.map .string)).Fractional := by
      refine .array fun x hx => ?_
      obtain ⟨s, -, rfl⟩ := List.mem_map.mp hx
      exact .string s
    have hBody := toJson_fractional body
    rw [toJson]
    exact fractional_object (by simp [hParams, hBody])
  | .call callee args => by
    have hCallee := toJson_fractional callee
    have hArgs := Json.Fractional.array (toJsons_fractional args)
    rw [toJson]
    exact fractional_object (by simp [hCallee, hArgs])
  | .number value => by
    rw [toJson]
    exact fractional_object (by simp [fractional_ofFloat value])
  | .var name => by
    rw [toJson]
    exact fractional_object (by simp [Json.Fractional.string])
  | .string value => by
    rw [toJson]
    exact fractional_object (by simp [Json.Fractional.string])
  | .boolean value => by
    rw [toJson]
    exact fractional_object (by simp [Json.Fractional.bool])

theorem toJsons_fractional : ∀ xs : List Node, ∀ j ∈ toJsons xs, j.Fractional
  | [] => by rintro _ ⟨⟩
  | x :: xs => List.forall_mem_cons.mpr ⟨toJson_fractional x, toJsons_fractional xs⟩

theorem elseMember_fractional : ∀ no : Option Node, ∀ m ∈ elseMember no, m.2.Fractional
  | none => by rintro _ ⟨⟩
  | some x => List.forall_mem_singleton.mpr (toJson_fractional x)

end

/-- A written text that is read as anything has numbers that are converted. -/
theorem Written.converts {n m : Node} {text : String} (hText : n.Written text)
    (hRead : Node.ofStored text = .ok m) : Json.Converts reread n.toJson := by
  obtain ⟨j, ⟨gap, token, gap', hGap, hGap', hSplit, hSpelled⟩, -⟩ := Node.ofStored_iff.mp hRead
  have hTried : Json.Tried n.toJson text.toList := by
    rcases hText with rfl | rfl
    · exact Json.compact_prints.tried n.toJson_fractional 0
    · exact Json.pretty_prints.tried n.toJson_fractional 0
  have hEnd : Json.Closed [] := by rintro _ ⟨⟩
  have hClosed := hGap'.closed hEnd
  rw [List.append_nil] at hClosed
  have hValue := hSpelled.reads.read (2 * text.toList.length) j.depth gap gap' hGap hClosed
    (by rw [hSplit]; simp only [List.length_append]; omega)
  rw [← hSplit, Json.within_of_le (Nat.le_refl _)] at hValue
  have hAlone : Json.readValue (2 * text.toList.length) j.depth ([] ++ (text.toList ++ [])) =
      .ok (j, gap') := by
    rw [List.append_nil]
    exact hValue
  exact hTried.converts Json.gap_nil hEnd (Nat.le_refl _) hAlone

end Written

/-- What is written for a tree and accepted is a spelling of it. -/
theorem Written.respelled {n m : Node} {text : String} (hText : n.Written text)
    (hFinite : ∀ x ∈ n.numbers, isFinite x = true) (hRead : Node.ofStored text = .ok m) :
    n.Respelled text := by
  have hSpelled := Json.written_spelled (hText.converts hRead) hText
  exact ⟨_, spells_of_fields (n.members_spell hFinite), hSpelled.spelledBy⟩

/-- **A spelling of a tree is read as the tree**, with its numbers converted. -/
theorem Respelled.ofStored {n : Node} {text : String} (h : n.Respelled text)
    (hDeep : Json.nesting text ≤ Json.nestingLimit) :
    Node.ofStored text = .ok (n.mapNumbers reread) := by
  obtain ⟨j, hSpells, hText⟩ := h
  rw [hText.nesting_eq] at hDeep
  have hNode := hSpells.node?_of_fields (FieldsSpell.node? n)
  exact Node.ofStored_iff.mpr ⟨j, hText, hSpells.titled, hDeep, hNode⟩

end Node

/--
**The reader ignores spelling.** Of a tree with finite numbers, whose written
text is read as some tree: every other spelling of it is read as the same tree,
unless it nests too deep.
-/
theorem respelled_texts_read_alike {n m : Node} {original text : String}
    (hFinite : ∀ x ∈ n.numbers, isFinite x = true) (hOriginal : n.Written original)
    (hRead : Node.ofStored original = .ok m) (hText : n.Respelled text)
    (hDeep : Json.nesting text ≤ Json.nestingLimit) : Node.ofStored text = .ok m := by
  obtain ⟨-, hLimit⟩ := Node.ofStored_writable hRead
  have hSame := (hOriginal.respelled hFinite hRead).ofStored hLimit
  rw [hText.ofStored hDeep, ← hSame, hRead]

/-- A conditional without a second branch, around a sum. -/
def plainTree : Node :=
  .condition (.boolean true) (.binary .plus (.number 0.5) (.var "x")) none

/-- An array with objects in it: the members are not in their order, a key that is a field of other
forms is added twice, the operator is an object, and the second branch is nothing. -/
def unusualSpelling : Json :=
  .array [.string "condition",
    .object [("value", .bool true), ("left", .array []), ("type", .string "bool"),
      ("left", .null)],
    .object [("right", .array [.string "var", .string "x"]),
      ("operator", .object [("+", .null)]), ("type", .string "binary"),
      ("left", .object [("type", .string "number"), ("value", .real 0.5)])],
    .null]

theorem plainTree_spells : plainTree.Spells unusualSpelling := by
  have hTest : (Node.boolean true).Spells (.object [("value", .bool true), ("left", .array []),
      ("type", .string "bool"), ("left", .null)]) := by
    have hExtra : ∀ m ∈ [("left", Json.array []), ("left", .null)],
        m.1 ≠ formKey ∧ m.1 ∉ (Node.boolean true).form.fields := by
      simp [formKey, Node.form, Form.fields]
    refine .object (.boolean true) hExtra ?_
    show ([_, _] ++ _ :: [_]).Perm _
    exact List.perm_middle
  have hHalf : (Node.number 0.5).Spells
      (.object [("type", .string "number"), ("value", .real 0.5)]) := by
    have hFields := Node.FieldsSpell.number 0.5
    rw [show reread 0.5 = 0.5 by decide +kernel] at hFields
    exact .object hFields (List.forall_mem_nil _) (.refl _)
  have hSum : (Node.binary .plus (.number 0.5) (.var "x")).Spells
      (.object [("right", .array [.string "var", .string "x"]),
        ("operator", .object [("+", .null)]), ("type", .string "binary"),
        ("left", .object [("type", .string "number"), ("value", .real 0.5)])]) := by
    have hFields := Node.FieldsSpell.binary (.object : BinaryOp.plus.Spells _) hHalf
      (.array (.var "x"))
    refine .object hFields (List.forall_mem_nil _) ?_
    show ([_, _] ++ _ :: [_]).Perm _
    refine List.perm_middle.trans (.cons _ ?_)
    show ([_] ++ [_, _]).Perm ([_, _] ++ [_])
    exact List.perm_append_comm
  exact .array (.condition hTest hSum .nothing)

/-- The spelling with line breaks is read as what is written without them. -/
theorem respelled_texts_read_alike_unusual : ∃ m,
    Node.ofStored plainTree.toJson.compact = .ok m ∧
      Node.ofStored unusualSpelling.pretty = .ok m := by
  have hAccepted : (Node.ofStored plainTree.toJson.compact).toOption.isSome = true := by
    decide +kernel
  have hFinite : ∀ x ∈ plainTree.numbers, isFinite x = true := by decide +kernel
  have hConverts : Json.Converts reread unusualSpelling := by
    simp only [unusualSpelling, Json.Converts, Json.ItemsConvert, Json.MembersConvert, true_and,
      and_true]
    decide +kernel
  have hSame : Json.mapReals reread unusualSpelling = unusualSpelling := by
    have hHalf : reread 0.5 = 0.5 := by decide +kernel
    simp only [unusualSpelling, Json.mapReals, Json.mapRealsItems, Json.mapRealsMembers, hHalf]
  have hText : unusualSpelling.SpelledBy unusualSpelling.pretty := by
    have hSpelled := Json.written_spelled hConverts (Or.inr rfl)
    rw [hSame] at hSpelled
    exact hSpelled.spelledBy
  have hDeep : Json.nesting unusualSpelling.pretty ≤ Json.nestingLimit := by
    rw [hText.nesting_eq]
    decide
  cases hRead : Node.ofStored plainTree.toJson.compact with
  | error e =>
    rw [hRead] at hAccepted
    cases hAccepted
  | ok m =>
    exact ⟨m, rfl, respelled_texts_read_alike hFinite (Or.inl rfl) hRead
      ⟨_, plainTree_spells, hText⟩ hDeep⟩

end Zaban
