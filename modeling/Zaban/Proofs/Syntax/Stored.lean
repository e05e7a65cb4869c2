import Mathlib.Data.List.Nodup
import Zaban.Proofs.Json.Writing
import Zaban.Syntax.Stored

/-!
# What a stored tree is read as

The text that is written for a tree, in either form, is read in one of three
ways (`ofStored_written`):

* as **malformed** text, if it nests more than `Json.nestingLimit` arrays and
  objects;
* else as text of the **wrong shape**, if a number of the tree is not finite,
  because such a number is written as `null`;
* else as the tree, with each number as the reader converts it.

The outermost node is read by a reader of its own, which looks at the form
before the other members; the text is the same as for any value, so the parts
of the text are known (`ofStored_spelled`), and what is left is to take the
tree apart and to put it together again (`Node.ofMembers?_toJson`).
-/

namespace Zaban

-- ----------------------------------------------------------------------------
-- The numbers of a tree
-- ----------------------------------------------------------------------------

/-- The number is neither infinite nor not-a-number. -/
def isFinite (x : Float) : Bool :=
  match Binary.ofFloat x with
  | .finite .. => true
  | _ => false

namespace Node

mutual

/-- The numbers that stand in a tree. -/
def numbers : Node → List Float
  | program body => allNumbers body
  | assignment target value => numbers target ++ numbers value
  | binary _ left right => numbers left ++ numbers right
  | condition test yes no => numbers test ++ (numbers yes ++ optionNumbers no)
  | lambda _ body => numbers body
  | call callee args => numbers callee ++ allNumbers args
  | number value => [value]
  | var _ | string _ | boolean _ => []

/-- The numbers that stand in trees. -/
def allNumbers : List Node → List Float
  | [] => []
  | x :: xs => numbers x ++ allNumbers xs

/-- The numbers that stand in a tree that may be absent. -/
def optionNumbers : Option Node → List Float
  | none => []
  | some x => numbers x

end

mutual

/-- The tree with its numbers changed. -/
def mapNumbers (f : Float → Float) : Node → Node
  | program body => program (mapAll f body)
  | assignment target value => assignment (mapNumbers f target) (mapNumbers f value)
  | binary op left right => binary op (mapNumbers f left) (mapNumbers f right)
  | condition test yes no =>
    condition (mapNumbers f test) (mapNumbers f yes) (mapOption f no)
  | lambda params body => lambda params (mapNumbers f body)
  | call callee args => call (mapNumbers f callee) (mapAll f args)
  | number value => number (f value)
  | var name => var name
  | string value => string value
  | boolean value => boolean value

/-- Trees with their numbers changed. -/
def mapAll (f : Float → Float) : List Node → List Node
  | [] => []
  | x :: xs => mapNumbers f x :: mapAll f xs

/-- A tree that may be absent, with its numbers changed. -/
def mapOption (f : Float → Float) : Option Node → Option Node
  | none => none
  | some x => some (mapNumbers f x)

end

/-- The form of a tree. -/
def form : Node → Form
  | program _ => .program
  | assignment .. => .assignment
  | binary .. => .binary
  | condition .. => .condition
  | lambda .. => .lambda
  | call .. => .call
  | var _ => .var
  | number _ => .number
  | string _ => .string
  | boolean _ => .bool

/-- The members of a stored tree, besides the form. -/
def members : Node → List (String × Json)
  | program body => [("program", .array (toJsons body))]
  | assignment target value => [("left", toJson target), ("right", toJson value)]
  | binary op left right =>
    [("operator", .string op.symbol), ("left", toJson left), ("right", toJson right)]
  | condition test yes no => ("cond", toJson test) :: ("then", toJson yes) :: elseMember no
  | lambda params body => [("vars", .array (params.map .string)), ("body", toJson body)]
  | call callee args => [("func", toJson callee), ("args", .array (toJsons args))]
  | var name => [("value", .string name)]
  | number value => [("value", .ofFloat value)]
  | string value => [("value", .string value)]
  | boolean value => [("value", .bool value)]

theorem toJson_eq (n : Node) : n.toJson = n.form.object n.members := by
  cases n <;> rw [toJson] <;> rfl

theorem formKey_notMem_members (n : Node) : formKey ∉ n.members.map Prod.fst := by
  cases n with
  | condition test yes no => cases no <;> simp [members, elseMember, formKey]
  | _ => simp [members, formKey]

end Node

-- ----------------------------------------------------------------------------
-- The text of the outermost node
-- ----------------------------------------------------------------------------

namespace Json

theorem Spelled.scalar_string {s : String} {cs : List Char} (h : Spelled (.string s) cs) :
    Scalar (.string s) cs := by
  cases h with
  | scalar h => exact h

theorem Spelled.object_parts {members : List (String × Json)} {cs : List Char}
    (h : Spelled (.object members) cs) :
    ∃ body, cs = '{' :: (body ++ ['}']) ∧ Parts (Member Spelled) true members body := by
  cases h with
  | scalar h => exact absurd h.depth_eq (by simp [depth])
  | object h => exact ⟨_, rfl, h⟩

theorem Member.imp {value value' : Json → List Char → Prop}
    (hImp : ∀ x cs, value x cs → value' x cs) {m : String × Json} {cs : List Char}
    (h : Member value m cs) : Member value' m cs := by
  cases h with
  | pair hKey hGap hGap' hValue => exact .pair hKey hGap hGap' (hImp _ _ hValue)

theorem readForm_reads {form : Form} {cs : List Char} (h : Scalar (.string form.name) cs)
    {fuel : Nat} {gap rest : List Char} (hGap : Gap gap) (hRest : Closed rest)
    (hFuel : cs.length ≤ fuel) : readForm fuel (gap ++ (cs ++ rest)) = .ok (form, rest) := by
  obtain ⟨c, inner, rfl, hStart, hRead⟩ := h.reads
  obtain ⟨_, _, hEq, hNoGap, -⟩ : Begun (c :: inner) := begun_of_mem (by grind) inner
  obtain ⟨rfl, -⟩ := List.cons.inj hEq
  rw [List.length_cons] at hFuel
  simp only [List.mem_cons, List.not_mem_nil, or_false, not_or] at hStart
  rw [readForm, skipGap_append hGap, List.cons_append, skipGap_cons hNoGap]
  simp only [hStart, or_self, if_false]
  rw [hRead fuel rest (by omega) hRest]
  simp only [bind, Except.bind, Form.ofName?_name]
  rfl

/-- The members of the outermost object behind its form. -/
theorem readNodeMembers_reads {members : List (String × Json)} {body : List Char} {first : Bool}
    (h : Parts (Member Spelled) first members body) (hKeys : formKey ∉ members.map Prod.fst)
    (form : Option Form) (rest : List Char) {fuel : Nat} (hFuel : 2 * body.length + 1 ≤ fuel) :
    readNodeMembers fuel form first (body ++ '}' :: rest) =
      within (membersDepth members) (nestingLimit - 1) ((form, members), rest) := by
  induction h generalizing fuel with
  | nil hGap =>
    obtain ⟨fuel, rfl⟩ : ∃ f, fuel = f + 1 := ⟨fuel - 1, by omega⟩
    rw [readNodeMembers, readSeparator_stop (by decide) hGap]
    exact (within_zero _ _).symm
  | @cons first lead cs more m xs hLead hPart hMore ih =>
    obtain ⟨key, x⟩ := m
    rw [List.map_cons, List.mem_cons, not_or] at hKeys
    obtain ⟨inner, colon, value, rfl, hValue, hKey, gap, hGap, hColon⟩ := hPart.reads_key
    simp only [List.length_append, List.length_cons] at hFuel
    obtain ⟨fuel, rfl⟩ : ∃ f, fuel = f + 1 := ⟨fuel - 1, by omega⟩
    have hText : lead ++ ('"' :: (inner ++ (colon ++ value)) ++ more) ++ '}' :: rest =
        lead ++ '"' :: (inner ++ (colon ++ (value ++ (more ++ '}' :: rest)))) := by simp
    rw [hText, readNodeMembers, readSeparator_lead hLead (by decide) (by decide) (by decide)]
    show (readKey fuel _ >>= fun k => if k.1 = formKey then _ else readColon k.2 >>= fun cs =>
      readValue fuel (nestingLimit - 1) cs >>= fun y => readNodeMembers fuel form false y.2 >>=
        fun z => pure ((z.1.1, (k.1, y.1) :: z.1.2), z.2)) = _
    rw [hKey fuel _ (by omega)]
    show (if key = formKey then _ else readColon _ >>= fun cs =>
      readValue fuel (nestingLimit - 1) cs >>= fun y => readNodeMembers fuel form false y.2 >>=
        fun z => pure ((z.1.1, (key, y.1) :: z.1.2), z.2)) = _
    rw [if_neg (Ne.symm hKeys.1), hColon]
    show (readValue fuel (nestingLimit - 1) _ >>= fun y => readNodeMembers fuel form false y.2 >>=
      fun z => pure ((z.1.1, (key, y.1) :: z.1.2), z.2)) = _
    rw [hValue.reads.read fuel _ gap _ hGap (hMore.closed (Or.inr rfl) rest) (by omega),
      membersDepth]
    refine within_bind ?_
    rw [ih hKeys.2 (by omega)]
    exact within_map fun z : (Option Form × List (String × Json)) × List Char =>
      ((z.1.1, (key, x) :: z.1.2), z.2)

/-- The member with the form comes first. -/
theorem readNodeMembers_form {form : Form} {members : List (String × Json)} {body : List Char}
    (h : Parts (Member Spelled) true ((formKey, .string form.name) :: members) body)
    (hKeys : formKey ∉ members.map Prod.fst) (rest : List Char) {fuel : Nat}
    (hFuel : 2 * body.length + 2 ≤ fuel) :
    readNodeMembers fuel none true (body ++ '}' :: rest) =
      within (membersDepth members) (nestingLimit - 1) ((some form, members), rest) := by
  cases h with
  | @cons _ lead cs more _ _ hLead hPart hMore =>
    obtain ⟨inner, colon, value, rfl, hValue, hKey, gap, hGap, hColon⟩ := hPart.reads_key
    simp only [List.length_append, List.length_cons] at hFuel
    obtain ⟨fuel, rfl⟩ : ∃ f, fuel = f + 1 := ⟨fuel - 1, by omega⟩
    have hText : lead ++ ('"' :: (inner ++ (colon ++ value)) ++ more) ++ '}' :: rest =
        lead ++ '"' :: (inner ++ (colon ++ (value ++ (more ++ '}' :: rest)))) := by simp
    have hForm := readForm_reads hValue.scalar_string hGap (hMore.closed (Or.inr rfl) rest)
      (show value.length ≤ fuel by omega)
    rw [hText, readNodeMembers, readSeparator_lead hLead (by decide) (by decide) (by decide)]
    show (readKey fuel _ >>= fun k => if k.1 = formKey then readColon k.2 >>= fun cs =>
      readForm fuel cs >>= fun y => readNodeMembers fuel (some y.1) false y.2 else _) = _
    rw [hKey fuel _ (by omega)]
    show (readColon _ >>= fun cs => readForm fuel cs >>= fun y =>
      readNodeMembers fuel (some y.1) false y.2) = _
    rw [hColon]
    show (readForm fuel _ >>= fun y => readNodeMembers fuel (some y.1) false y.2) = _
    rw [hForm]
    exact readNodeMembers_reads hMore hKeys (some form) rest (by omega)

/-- **What a text that spells an object with a form is read as.** -/
theorem ofStored_spelled {form : Form} {members : List (String × Json)} {text : String}
    (h : Spelled (form.object members) text.toList) (hKeys : formKey ∉ members.map Prod.fst) :
    Node.ofStored text = (within (form.object members).depth nestingLimit () >>= fun _ =>
      shaped (form.ofMembers? (Part.ofMembers members))) := by
  obtain ⟨body, hText, hParts⟩ := h.object_parts
  have hDepth : (form.object members).depth = membersDepth members + 1 := by
    simp [Form.object, depth, membersDepth]
  have hNode : ∀ fuel, 2 * body.length + 2 ≤ fuel → readNode fuel text.toList =
      (within (membersDepth members) (nestingLimit - 1) ((some form, members), []) >>= fun x =>
        shaped (x.1.1.bind (·.ofMembers? (Part.ofMembers x.1.2))) >>= fun node =>
          pure (node, x.2)) := by
    intro fuel hFuel
    rw [hText, readNode, skipGap_cons (by decide), ← readNodeMembers_form hParts hKeys [] hFuel]
    rfl
  have hFuel : 2 * body.length + 2 ≤ readFuel text.toList.length := by
    rw [hText, readFuel, List.length_cons]
    simp only [List.length_append, List.length_singleton]
    omega
  show (readNode _ text.toList >>= fun x => if (skipGap x.2).isEmpty then pure x.1 else _) = _
  rw [hNode _ hFuel, hDepth]
  by_cases hDeep : membersDepth members ≤ nestingLimit - 1
  · have hLimit : membersDepth members + 1 ≤ nestingLimit := by
      unfold nestingLimit at *
      omega
    rw [within, if_pos hDeep, within, if_pos hLimit]
    show ((shaped (form.ofMembers? (Part.ofMembers members)) >>= fun node => pure (node, [])) >>=
      _) = shaped _
    cases form.ofMembers? (Part.ofMembers members) <;> rfl
  · have hLimit : ¬ membersDepth members + 1 ≤ nestingLimit := by
      unfold nestingLimit at *
      omega
    rw [within, if_neg hDeep, within, if_neg hLimit]
    rfl

end Json

-- ----------------------------------------------------------------------------
-- Putting the tree together
-- ----------------------------------------------------------------------------

/-- What is made of a stored tree with the given numbers: nothing if one of them is not finite. -/
def whenFinite {α : Type} (xs : List Float) (a : α) : Option α :=
  if xs.all isFinite then some a else none

section WhenFinite

variable {α β : Type} {xs ys : List Float} {a : α} {b : β}

theorem whenFinite_map (f : α → β) :
    (whenFinite xs a >>= fun a => pure (f a)) = whenFinite xs (f a) := by
  unfold whenFinite
  split <;> rfl

theorem whenFinite_bind {f : α → Option β} (h : f a = whenFinite ys b) :
    (whenFinite xs a >>= f) = whenFinite (xs ++ ys) b := by
  unfold whenFinite at *
  rw [List.all_append]
  cases xs.all isFinite with
  | false => rfl
  | true => exact h

end WhenFinite

/-- No field is given twice if the keys are distinct. -/
theorem Form.ofMembers?_of_nodup {form : Form} {members : List (String × Part)}
    (h : (members.map Prod.fst).Nodup) :
    form.ofMembers? members = form.node? fun f => List.lookup f members := by
  have hOnce : (form.fields.all fun f => (members.map Prod.fst).count f ≤ 1) = true := by
    rw [List.all_eq_true]
    intro key _
    exact decide_eq_true (List.nodup_iff_count_le_one.mp h key)
  rw [Form.ofMembers?, if_pos hOnce]

theorem Part.ofMembers_keys (members : List (String × Json)) :
    (Part.ofMembers members).map Prod.fst = members.map Prod.fst := by
  induction members with
  | nil => rfl
  | cons m ms ih => rw [Part.ofMembers, List.map_cons, ih, List.map_cons]

theorem Part.node?_object {form : Form} {members : List (String × Json)}
    (hKeys : formKey ∉ members.map Prod.fst) :
    (Part.ofJson (form.object members)).node? = form.ofMembers? (Part.ofMembers members) := by
  have hNone : ∀ m ∈ Part.ofMembers members, (m.1 == formKey) = false := by
    intro m hm
    rw [beq_eq_false_iff_ne]
    intro hEq
    refine hKeys ?_
    rw [← Part.ofMembers_keys, ← hEq]
    exact List.mem_map_of_mem hm
  have hSplit : ((formKey, Part.ofJson (.string form.name)) :: Part.ofMembers members).partition
      (·.1 == formKey) =
        ([(formKey, Part.ofJson (.string form.name))], Part.ofMembers members) := by
    rw [List.partition_eq_filter_filter, List.filter_cons_of_pos (by simp),
      List.filter_eq_nil_iff.mpr fun m hm => by simp [hNone m hm],
      List.filter_cons_of_neg (by simp), List.filter_eq_self.mpr fun m hm => by simp [hNone m hm]]
  rw [Form.object, Part.ofJson, Part.ofMembers]
  simp only [Node.ofMembers?, hSplit]
  show (Form.ofName? form.name >>= fun form => form.ofMembers? _) = _
  rw [Form.ofName?_name]
  rfl

namespace Node

open Json (mapReals mapRealsItems mapRealsMembers)

theorem mapRealsMembers_keys (f : Float → Float) (members : List (String × Json)) :
    (mapRealsMembers f members).map Prod.fst = members.map Prod.fst := by
  rw [Json.mapRealsMembers_eq, List.map_map]
  rfl

theorem mapReals_toJson (f : Float → Float) (n : Node) :
    mapReals f n.toJson = n.form.object (mapRealsMembers f n.members) := by
  rw [toJson_eq, Form.object, mapReals, mapRealsMembers, mapReals]
  · rfl
  all_goals rintro _ ⟨⟩

/-- A tree inside another is read as it would be by itself. -/
theorem node?_of_ofMembers? {f : Float → Float} {n : Node} {node? : Option Node}
    (h : n.form.ofMembers? (Part.ofMembers (mapRealsMembers f n.members)) = node?) :
    (Part.ofJson (mapReals f n.toJson)).node? = node? := by
  have hKeys : formKey ∉ (mapRealsMembers f n.members).map Prod.fst := by
    rw [mapRealsMembers_keys]
    exact n.formKey_notMem_members
  rw [mapReals_toJson, Part.node?_object hKeys, h]

theorem ofMembers?_eq (f : Float → Float) (n : Node) :
    n.form.ofMembers? (Part.ofMembers (mapRealsMembers f n.members)) =
      n.form.node? fun key => List.lookup key (Part.ofMembers (mapRealsMembers f n.members)) := by
  refine Form.ofMembers?_of_nodup ?_
  rw [Part.ofMembers_keys, mapRealsMembers_keys]
  cases n with
  | condition test yes no => cases no <;> simp [members, elseMember]
  | _ => simp [members]

/-- The parameters of a function are read as they are. -/
theorem strings?_strings (params : List String) :
    (Part.ofJson (.array (params.map .string))).strings? = some params := by
  show List.mapM _ (params.map Json.string) = some params
  induction params with
  | nil => rfl
  | cons x xs ih =>
    rw [List.map_cons, List.mapM_cons, ih]
    rfl

theorem mapRealsItems_strings (f : Float → Float) (params : List String) :
    mapRealsItems f (params.map .string) = params.map .string := by
  rw [Json.mapRealsItems_eq, List.map_map]
  exact List.map_congr_left fun _ _ => by simp [mapReals]

theorem strings?_params (f : Float → Float) (params : List String) :
    (Part.ofJson (mapReals f (.array (params.map .string)))).strings? = some params := by
  rw [mapReals, mapRealsItems_strings]
  exact strings?_strings params

/-- A number that is not finite is stored as nothing. -/
theorem number?_ofFloat (f : Float → Float) (x : Float) :
    (Part.ofJson (mapReals f (.ofFloat x))).number? = whenFinite [x] (f x) := by
  unfold Json.ofFloat whenFinite isFinite
  simp only [List.all_cons, List.all_nil, Bool.and_true]
  cases Binary.ofFloat x <;> rfl

mutual

/-- **A stored tree is put together as it was taken apart**, if its numbers are finite. -/
theorem ofMembers?_toJson (f : Float → Float) : ∀ n : Node,
    n.form.ofMembers? (Part.ofMembers (mapRealsMembers f n.members)) =
      whenFinite n.numbers (n.mapNumbers f)
  | .program body => by
    have hBody := nodes?_toJsons f body
    rw [ofMembers?_eq]
    show ((Part.ofItems (mapRealsItems f (toJsons body))).mapM Part.node? >>= fun xs =>
      pure (program xs)) = _
    rw [hBody]
    exact whenFinite_map _
  | .assignment target value => by
    have hTarget := node?_of_ofMembers? (ofMembers?_toJson f target)
    have hValue := node?_of_ofMembers? (ofMembers?_toJson f value)
    rw [ofMembers?_eq]
    show ((Part.ofJson (mapReals f target.toJson)).node? >>= fun t =>
      (Part.ofJson (mapReals f value.toJson)).node? >>= fun v => pure (assignment t v)) = _
    rw [hTarget, hValue]
    exact whenFinite_bind (whenFinite_map _)
  | .binary op left right => by
    have hLeft := node?_of_ofMembers? (ofMembers?_toJson f left)
    have hRight := node?_of_ofMembers? (ofMembers?_toJson f right)
    rw [ofMembers?_eq]
    show (BinaryOp.ofSymbol? op.symbol >>= fun op =>
      (Part.ofJson (mapReals f left.toJson)).node? >>= fun l =>
        (Part.ofJson (mapReals f right.toJson)).node? >>= fun r => pure (binary op l r)) = _
    rw [BinaryOp.ofSymbol?_symbol, hLeft, hRight]
    exact whenFinite_bind (whenFinite_map _)
  | .condition test yes no => by
    have hTest := node?_of_ofMembers? (ofMembers?_toJson f test)
    have hYes := node?_of_ofMembers? (ofMembers?_toJson f yes)
    have hNo := optional?_elseMember f no
    rw [ofMembers?_eq]
    show ((Part.ofJson (mapReals f test.toJson)).node? >>= fun c =>
      (Part.ofJson (mapReals f yes.toJson)).node? >>= fun y =>
        Part.optional? (List.lookup "else" (Part.ofMembers (mapRealsMembers f (elseMember no)))) >>=
          fun n => pure (condition c y n)) = _
    rw [hTest, hYes, hNo]
    exact whenFinite_bind (whenFinite_bind (whenFinite_map _))
  | .lambda params body => by
    have hParams := strings?_params f params
    have hBody := node?_of_ofMembers? (ofMembers?_toJson f body)
    rw [ofMembers?_eq]
    show ((Part.ofJson (mapReals f (.array (params.map .string)))).strings? >>= fun ps =>
      (Part.ofJson (mapReals f body.toJson)).node? >>= fun b => pure (lambda ps b)) = _
    rw [hParams, hBody]
    exact whenFinite_map _
  | .call callee args => by
    have hCallee := node?_of_ofMembers? (ofMembers?_toJson f callee)
    have hArgs := nodes?_toJsons f args
    rw [ofMembers?_eq]
    show ((Part.ofJson (mapReals f callee.toJson)).node? >>= fun c =>
      (Part.ofItems (mapRealsItems f (toJsons args))).mapM Part.node? >>= fun xs =>
        pure (call c xs)) = _
    rw [hCallee, hArgs]
    exact whenFinite_bind (whenFinite_map _)
  | .var name => by
    rw [ofMembers?_eq]
    rfl
  | .number value => by
    have hNumber := number?_ofFloat f value
    rw [ofMembers?_eq]
    show ((Part.ofJson (mapReals f (.ofFloat value))).number? >>= fun x => pure (number x)) = _
    rw [hNumber]
    exact whenFinite_map _
  | .string value => by
    rw [ofMembers?_eq]
    rfl
  | .boolean value => by
    rw [ofMembers?_eq]
    rfl

theorem nodes?_toJsons (f : Float → Float) : ∀ xs : List Node,
    (Part.ofItems (mapRealsItems f (toJsons xs))).mapM Part.node? =
      whenFinite (allNumbers xs) (mapAll f xs)
  | [] => rfl
  | x :: xs => by
    have hHead := node?_of_ofMembers? (ofMembers?_toJson f x)
    have hTail := nodes?_toJsons f xs
    rw [toJsons, mapRealsItems, Part.ofItems, List.mapM_cons, hHead, hTail]
    exact whenFinite_bind (whenFinite_map _)

theorem optional?_elseMember (f : Float → Float) : ∀ no : Option Node,
    Part.optional? (List.lookup "else" (Part.ofMembers (mapRealsMembers f (elseMember no)))) =
      whenFinite (optionNumbers no) (mapOption f no)
  | none => rfl
  | some x => by
    have hBranch := node?_of_ofMembers? (ofMembers?_toJson f x)
    have hJson : (Part.ofJson (mapReals f x.toJson)).json =
        x.form.object (mapRealsMembers f x.members) := by
      rw [mapReals_toJson]
      rfl
    show Part.optional? (some (Part.ofJson (mapReals f x.toJson))) = _
    rw [Part.optional?, hJson]
    show (Part.ofJson (mapReals f x.toJson)).node?.map some = _
    rw [hBranch]
    show (whenFinite x.numbers (mapNumbers f x)).map some =
      whenFinite x.numbers (some (mapNumbers f x))
    unfold whenFinite
    split <;> rfl

end

theorem converts_object {f : Float → Float} {form : Form} {members : List (String × Json)}
    (h : Json.MembersConvert f members) : Json.Converts f (form.object members) :=
  ⟨trivial, h⟩

theorem converts_strings (f : Float → Float) (xs : List String) :
    Json.ItemsConvert f (xs.map .string) := by
  induction xs with
  | nil => trivial
  | cons x xs ih => exact ⟨trivial, ih⟩

theorem converts_ofFloat {f : Float → Float} {x : Float}
    (h : isFinite x = true → Json.reread? x = some (f x)) : Json.Converts f (.ofFloat x) := by
  unfold Json.ofFloat
  unfold isFinite at h
  split
  · rename_i hFinite
    rw [hFinite] at h
    exact h rfl
  · trivial

mutual

/-- The numbers of a stored tree are converted if those of the tree are. -/
theorem converts_toJson {f : Float → Float} : ∀ n : Node,
    (∀ x ∈ n.numbers, isFinite x = true → Json.reread? x = some (f x)) → Json.Converts f n.toJson
  | .program body, h => by
    rw [toJson]
    exact converts_object ⟨converts_toJsons body h, trivial⟩
  | .assignment target value, h | .binary _ target value, h => by
    have hTarget := converts_toJson target fun x hx => h x (List.mem_append_left _ hx)
    have hValue := converts_toJson value fun x hx => h x (List.mem_append_right _ hx)
    rw [toJson]
    exact converts_object (by simp [Json.MembersConvert, Json.Converts, hTarget, hValue])
  | .condition test yes no, h => by
    have hTest := converts_toJson test fun x hx => h x (List.mem_append_left _ hx)
    have hYes := converts_toJson yes fun x hx =>
      h x (List.mem_append_right _ (List.mem_append_left _ hx))
    have hNo := converts_elseMember no fun x hx =>
      h x (List.mem_append_right _ (List.mem_append_right _ hx))
    rw [toJson]
    exact converts_object ⟨hTest, hYes, hNo⟩
  | .lambda params body, h => by
    rw [toJson]
    exact converts_object ⟨converts_strings f params, converts_toJson body h, trivial⟩
  | .call callee args, h => by
    have hCallee := converts_toJson callee fun x hx => h x (List.mem_append_left _ hx)
    have hArgs := converts_toJsons args fun x hx => h x (List.mem_append_right _ hx)
    rw [toJson]
    exact converts_object ⟨hCallee, hArgs, trivial⟩
  | .number value, h => by
    rw [toJson]
    exact converts_object ⟨converts_ofFloat (h value (List.mem_singleton.mpr rfl)), trivial⟩
  | .var _, _ | .string _, _ | .boolean _, _ => by
    rw [toJson]
    exact converts_object ⟨trivial, trivial⟩

theorem converts_toJsons {f : Float → Float} : ∀ xs : List Node,
    (∀ x ∈ allNumbers xs, isFinite x = true → Json.reread? x = some (f x)) →
      Json.ItemsConvert f (toJsons xs)
  | [], _ => trivial
  | x :: xs, h => by
    refine ⟨converts_toJson x fun y hy => h y (List.mem_append_left _ hy), ?_⟩
    exact converts_toJsons xs fun y hy => h y (List.mem_append_right _ hy)

theorem converts_elseMember {f : Float → Float} : ∀ no : Option Node,
    (∀ x ∈ optionNumbers no, isFinite x = true → Json.reread? x = some (f x)) →
      Json.MembersConvert f (elseMember no)
  | none, _ => trivial
  | some x, h => ⟨converts_toJson x h, trivial⟩

end

mutual

theorem mapNumbers_eq_self {f : Float → Float} :
    ∀ n : Node, (∀ x ∈ n.numbers, f x = x) → n.mapNumbers f = n
  | .program body, h => by rw [mapNumbers, mapAll_eq_self body h]
  | .assignment target value, h | .binary _ target value, h => by
    rw [mapNumbers, mapNumbers_eq_self target fun x hx => h x (List.mem_append_left _ hx),
      mapNumbers_eq_self value fun x hx => h x (List.mem_append_right _ hx)]
  | .condition test yes no, h => by
    rw [mapNumbers, mapNumbers_eq_self test fun x hx => h x (List.mem_append_left _ hx),
      mapNumbers_eq_self yes fun x hx => h x (List.mem_append_right _ (List.mem_append_left _ hx)),
      mapOption_eq_self no fun x hx => h x (List.mem_append_right _ (List.mem_append_right _ hx))]
  | .lambda _ body, h => by rw [mapNumbers, mapNumbers_eq_self body h]
  | .call callee args, h => by
    rw [mapNumbers, mapNumbers_eq_self callee fun x hx => h x (List.mem_append_left _ hx),
      mapAll_eq_self args fun x hx => h x (List.mem_append_right _ hx)]
  | .number value, h => by rw [mapNumbers, h value (List.mem_singleton.mpr rfl)]
  | .var _, _ | .string _, _ | .boolean _, _ => rfl

theorem mapAll_eq_self {f : Float → Float} :
    ∀ xs : List Node, (∀ x ∈ allNumbers xs, f x = x) → mapAll f xs = xs
  | [], _ => rfl
  | x :: xs, h => by
    rw [mapAll, mapNumbers_eq_self x fun y hy => h y (List.mem_append_left _ hy),
      mapAll_eq_self xs fun y hy => h y (List.mem_append_right _ hy)]

theorem mapOption_eq_self {f : Float → Float} :
    ∀ no : Option Node, (∀ x ∈ optionNumbers no, f x = x) → mapOption f no = no
  | none, _ => rfl
  | some x, h => by rw [mapOption, mapNumbers_eq_self x h]

end

end Node

-- ----------------------------------------------------------------------------
-- The whole text
-- ----------------------------------------------------------------------------

/-- The number that the reader converts the written text of a finite number to. -/
def Json.reread (x : Float) : Float :=
  (Json.reread? x).getD x

/-- The reader converts the written text of every finite number of the tree to some number. -/
def Node.Converted (n : Node) : Prop :=
  ∀ x ∈ n.numbers, isFinite x = true → (Json.reread? x).isSome

/-- The text is what is written for the tree, in one of the two forms. -/
def Node.Written (n : Node) (text : String) : Prop :=
  text = n.toJson.compact ∨ text = n.toJson.pretty

theorem Node.Converted.toJson {n : Node} (h : n.Converted) :
    Json.Converts Json.reread n.toJson := by
  refine n.converts_toJson fun x hx hFinite => ?_
  obtain ⟨y, hy⟩ := Option.isSome_iff_exists.mp (h x hx hFinite)
  rw [Json.reread, hy]
  rfl

theorem Node.Converted.nesting_storedText {n : Node} (h : n.Converted) :
    Json.nesting n.storedText = n.toJson.depth :=
  Json.nesting_written h.toJson (Or.inr rfl)

section Written

variable {n : Node} (hConverted : n.Converted) {text : String} (hText : n.Written text)

include hConverted hText

theorem Node.ofStored_eq :
    Node.ofStored text = (Json.within (Json.nesting text) Json.nestingLimit () >>= fun _ =>
      Json.shaped (whenFinite n.numbers (n.mapNumbers Json.reread))) := by
  have hSpelled := Json.written_spelled hConverted.toJson hText
  have hNesting := hSpelled.nesting_eq
  rw [n.mapReals_toJson] at hSpelled hNesting
  have hKeys : formKey ∉ (Json.mapRealsMembers Json.reread n.members).map Prod.fst := by
    rw [Node.mapRealsMembers_keys]
    exact n.formKey_notMem_members
  rw [Json.ofStored_spelled hSpelled hKeys, n.ofMembers?_toJson, hNesting]

theorem Node.ofStored_eq_malformed_iff :
    Node.ofStored text = .error .malformed ↔ Json.nestingLimit < Json.nesting text := by
  rw [Node.ofStored_eq hConverted hText, Json.within, whenFinite, ← Nat.not_le]
  by_cases hDeep : Json.nesting text ≤ Json.nestingLimit
  · by_cases hFinite : n.numbers.all isFinite = true <;>
      simp [hDeep, hFinite, Json.shaped, bind, Except.bind]
  · simp [hDeep, bind, Except.bind]

theorem Node.ofStored_eq_misshapen_iff (hDeep : Json.nesting text ≤ Json.nestingLimit) :
    Node.ofStored text = .error .misshapen ↔ ∃ x ∈ n.numbers, isFinite x = false := by
  have hSome : (∃ x ∈ n.numbers, isFinite x = false) ↔ ¬ n.numbers.all isFinite = true := by simp
  rw [Node.ofStored_eq hConverted hText, Json.within, whenFinite, if_pos hDeep, hSome]
  by_cases hFinite : n.numbers.all isFinite = true <;>
    simp [hFinite, Json.shaped, bind, Except.bind]

theorem Node.ofStored_eq_ok_iff {m : Node} :
    Node.ofStored text = .ok m ↔ Json.nesting text ≤ Json.nestingLimit ∧
      (∀ x ∈ n.numbers, isFinite x = true) ∧ n.mapNumbers Json.reread = m := by
  rw [Node.ofStored_eq hConverted hText, ← List.all_eq_true, Json.within, whenFinite]
  by_cases hDeep : Json.nesting text ≤ Json.nestingLimit
  · by_cases hFinite : n.numbers.all isFinite = true <;>
      simp [hDeep, hFinite, Json.shaped, bind, Except.bind]
  · simp [hDeep, bind, Except.bind]

end Written

/--
**What reading a written tree gives.** Of the text that is written for a tree,
in the compact form and in the pretty form alike: it is malformed exactly if it
nests arrays and objects beyond the limit; else it has the wrong shape exactly
if a number of the tree is not finite; else it is the tree with every number as
the reader converts its text, and so the tree itself if the conversion leaves
the numbers as they are.
-/
theorem ofStored_written {n : Node} (hConverted : n.Converted) {text : String}
    (hText : n.Written text) :
    (Node.ofStored text = .error .malformed ↔ Json.nestingLimit < Json.nesting text) ∧
    (Json.nesting text ≤ Json.nestingLimit →
      (Node.ofStored text = .error .misshapen ↔ ∃ x ∈ n.numbers, isFinite x = false) ∧
      ((∀ x ∈ n.numbers, isFinite x = true) →
        Node.ofStored text = .ok (n.mapNumbers Json.reread) ∧
        ((∀ x ∈ n.numbers, Json.reread x = x) → Node.ofStored text = .ok n))) := by
  have hMalformed := Node.ofStored_eq_malformed_iff hConverted hText
  refine ⟨hMalformed, fun hDeep => ?_⟩
  have hMisshapen := Node.ofStored_eq_misshapen_iff hConverted hText hDeep
  refine ⟨hMisshapen, fun hFinite => ?_⟩
  have hRead : Node.ofStored text = .ok (n.mapNumbers Json.reread) :=
    (Node.ofStored_eq_ok_iff hConverted hText).mpr ⟨hDeep, hFinite, rfl⟩
  refine ⟨hRead, fun hSame => ?_⟩
  rw [hRead, n.mapNumbers_eq_self hSame]

/-- A conditional without a second branch, around an empty block, a function without parameters, a
number and texts that need escapes. -/
def escapedTree : Node :=
  .condition (.string "\"\\\x01λ") (.call (.lambda [] (.program [])) [.number 0.5, .var "\n"]) none

theorem ofStored_written_escapedTree :
    escapedTree.Converted ∧ Node.ofStored escapedTree.storedText = .ok escapedTree := by
  have hNumbers : escapedTree.numbers = [0.5] := rfl
  have hHalf : Json.reread? 0.5 = some 0.5 := by decide +kernel
  have hConverted : escapedTree.Converted := by
    intro x hx _
    rw [hNumbers, List.mem_singleton] at hx
    rw [hx, hHalf]
    rfl
  have hDepth : Json.nesting escapedTree.storedText ≤ Json.nestingLimit := by
    rw [hConverted.nesting_storedText]
    decide +kernel
  have hFinite : ∀ x ∈ escapedTree.numbers, isFinite x = true := by
    intro x hx
    rw [hNumbers, List.mem_singleton] at hx
    rw [hx]
    decide +kernel
  obtain ⟨-, hSame⟩ := ((ofStored_written hConverted (Or.inr rfl)).2 hDepth).2 hFinite
  refine ⟨hConverted, hSame fun x hx => ?_⟩
  rw [hNumbers, List.mem_singleton] at hx
  rw [hx, Json.reread, hHalf]
  rfl

end Zaban
