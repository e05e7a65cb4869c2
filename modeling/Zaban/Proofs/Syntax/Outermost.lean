import Zaban.Proofs.Json.Accepting

/-!
# Texts that store a tree

The outermost node has a reader of its own, which looks at the form where it
stands. Whatever the order of the members, it comes to the same as reading the
text as any value and looking at the shape of the value afterwards, but for one
thing: the form has to be a name. So a text is read as a tree exactly if it
spells a value that is **titled** in this sense, nests arrays and objects within
the limit, and has the shape of the tree (`Node.ofStored_iff`).
-/

namespace Zaban

/-- The member that names the form. -/
def Form.tag (form : Form) : String × Json :=
  (formKey, .string form.name)

theorem Form.tag_injective : Function.Injective Form.tag := by
  intro form form' h
  have hName : form.name = form'.name := Json.string.inj (Prod.mk.inj h).2
  rw [← Option.some.injEq, ← Form.ofName?_name, hName, Form.ofName?_name]

/-- The value gives the form of a node by its name: in the only member for it, or as the first
item. -/
inductive Json.Titled : Json → Prop where
  | object {form : Form} {members : List (String × Json)}
      (h : members.filter (·.1 == formKey) = [form.tag]) : Titled (.object members)
  | array (form : Form) (items : List Json) : Titled (.array (.string form.name :: items))

/-- The text spells the value, with white space around it. -/
def Json.SpelledBy (j : Json) (text : String) : Prop :=
  ∃ gap token gap', Gap gap ∧ Gap gap' ∧ text.toList = gap ++ (token ++ gap') ∧ Spelled j token

theorem Json.Spelled.spelledBy {j : Json} {text : String} (h : Spelled j text.toList) :
    j.SpelledBy text :=
  ⟨[], text.toList, [], gap_nil, gap_nil, (List.append_nil _).symm, h⟩

theorem Json.SpelledBy.nesting_eq {j : Json} {text : String} (h : j.SpelledBy text) :
    nesting text = j.depth := by
  obtain ⟨gap, token, gap', hGap, hGap', hText, hSpelled⟩ := h
  have hNests := hGap.nests.append (hSpelled.nests.append hGap'.nests)
  rw [← hText, Nat.max_zero, Nat.zero_max] at hNests
  exact nesting_of_nests hNests

theorem Json.SpelledBy.allFinite {j : Json} {text : String} (h : j.SpelledBy text) :
    j.AllFinite := by
  obtain ⟨_, _, _, -, -, -, hSpelled⟩ := h
  exact hSpelled.allFinite

theorem Form.name_of_ofName? {s : String} {form : Form} (h : Form.ofName? s = some form) :
    s = form.name := by
  have hName := List.find?_some h
  exact (beq_iff_eq.mp hName).symm

-- ----------------------------------------------------------------------------
-- What is made of the members
-- ----------------------------------------------------------------------------

namespace Part

theorem ofMembers_filter (p : String → Bool) (members : List (String × Json)) :
    Part.ofMembers (members.filter fun m => p m.1) =
      (Part.ofMembers members).filter fun m => p m.1 := by
  induction members with
  | nil => rfl
  | cons m ms ih =>
    cases hKey : p m.1 with
    | true => simp [Part.ofMembers, hKey, ih]
    | false => simp [Part.ofMembers, hKey, ih]

/-- What an object is as a node: one of the form that its only tag names, with the other members. -/
theorem node?_of_tag {form : Form} {members : List (String × Json)}
    (h : members.filter (·.1 == formKey) = [form.tag]) :
    (Part.ofJson (.object members)).node? =
      form.ofMembers? (Part.ofMembers (members.filter (·.1 != formKey))) := by
  have hTag : (Part.ofMembers members).filter (·.1 == formKey) =
      [(formKey, Part.ofJson (.string form.name))] := by
    rw [← Part.ofMembers_filter (· == formKey), h]
    rfl
  have hRest : (Part.ofMembers members).filter (fun m => !(m.1 == formKey)) =
      Part.ofMembers (members.filter (·.1 != formKey)) :=
    (Part.ofMembers_filter (fun key => !(key == formKey)) members).symm
  show Node.ofMembers? (Part.ofMembers members) = _
  rw [Node.ofMembers?, List.partition_eq_filter_filter, hTag]
  show (Form.ofName? form.name >>= fun form => form.ofMembers? _) = _
  rw [Form.ofName?_name]
  exact congrArg form.ofMembers? hRest

theorem node?_array (form : Form) (items : List Json) :
    (Part.ofJson (.array (.string form.name :: items))).node? =
      form.ofItems? (Part.ofItems items) := by
  show (Form.ofName? form.name >>= fun form => form.ofItems? (Part.ofItems items)) = _
  rw [Form.ofName?_name]
  rfl

end Part

-- ----------------------------------------------------------------------------
-- What is read is spelled
-- ----------------------------------------------------------------------------

namespace Json

theorem readForm_accepts {fuel : Nat} {cs rest : List Char} {form : Form}
    (h : readForm fuel cs = .ok (form, rest)) :
    ∃ gap token, Gap gap ∧ cs = gap ++ (token ++ rest) ∧ Spelled (.string form.name) token := by
  obtain ⟨gap, hGap, hText⟩ := exists_gap cs
  unfold readForm at h
  split at h
  · cases h
  rename_i c cs' hSkip
  rw [hSkip] at hText
  split at h
  · cases h
  obtain ⟨⟨x, rest'⟩, hScalar, h⟩ := bind_eq_ok.mp h
  obtain ⟨token, hToken, hSpelled, -⟩ := readScalar_accepts hScalar
  simp only at h
  split at h
  · split at h
    · rename_i s form' hForm
      obtain ⟨rfl, rfl⟩ := Prod.mk.inj (pure_eq_ok.mp h)
      rw [Form.name_of_ofName? hForm] at hSpelled
      exact ⟨gap, token, hGap, by rw [hText, hToken], .scalar hSpelled⟩
    · cases h
  · cases h

theorem accepted_name {form : Form} {cs : List Char} (h : Spelled (.string form.name) cs)
    (limit : Nat) : Accepted limit (.string form.name) cs :=
  ⟨h, Nat.zero_le limit, .string form.name⟩

/-- The members of the outermost object: those that name the form, of which there is one at most
with the one `form` that was read before, and the others. -/
theorem readNodeMembers_accepts {fuel : Nat} {form form' : Option Form} {first : Bool}
    {cs rest : List Char} {members : List (String × Json)}
    (h : readNodeMembers fuel form first cs = .ok ((form', members), rest)) :
    ∃ body all, cs = body ++ '}' :: rest ∧
      Parts (Member (Accepted (nestingLimit - 1))) first all body ∧
      members = all.filter (·.1 != formKey) ∧
      form.toList.map Form.tag ++ all.filter (·.1 == formKey) = form'.toList.map Form.tag := by
  induction fuel generalizing form first cs members with
  | zero => cases h
  | succ fuel ih =>
    rw [readNodeMembers] at h
    obtain ⟨⟨more, cs'⟩, hSeparator, h⟩ := bind_eq_ok.mp h
    cases more with
    | false =>
      obtain ⟨hResult, rfl⟩ := Prod.mk.inj (pure_eq_ok.mp h)
      obtain ⟨rfl, rfl⟩ := Prod.mk.inj hResult
      obtain ⟨gap, hGap, rfl⟩ := readSeparator_eq_false hSeparator
      exact ⟨gap, [], rfl, .nil hGap, rfl, List.append_nil _⟩
    | true =>
      obtain ⟨⟨key, cs₁⟩, hKey, hMember⟩ := bind_eq_ok.mp h
      obtain ⟨lead, hLead, rfl⟩ := readSeparator_eq_true hSeparator
      obtain ⟨ks, rfl, hQuoted⟩ := readKey_accepts hKey
      simp only at hMember
      split_ifs at hMember with hForm hTwice
      · obtain ⟨cs₂, hColon, hValue⟩ := bind_eq_ok.mp hMember
        obtain ⟨⟨name, cs₃⟩, hName, hRest⟩ := bind_eq_ok.mp hValue
        obtain ⟨gap, hGap, rfl⟩ := readColon_eq_ok hColon
        obtain ⟨gap', token, hGap', rfl, hSpelled⟩ := readForm_accepts hName
        obtain ⟨body, all, rfl, hParts, rfl, hTags⟩ := ih hRest
        obtain rfl : form = none := by simpa using hTwice
        refine ⟨_, (key, .string name.name) :: all, by simp,
          .cons hLead (.pair hQuoted hGap hGap' (accepted_name hSpelled _)) hParts, ?_, ?_⟩
        · simp [hForm]
        · rw [← hTags]
          simp [hForm, Form.tag]
      · obtain ⟨cs₂, hColon, hMember⟩ := bind_eq_ok.mp hMember
        obtain ⟨⟨x, cs₃⟩, hValue, hMember⟩ := bind_eq_ok.mp hMember
        obtain ⟨⟨⟨form'', members'⟩, cs₄⟩, hRest, hMember⟩ := bind_eq_ok.mp hMember
        obtain ⟨hResult, rfl⟩ := Prod.mk.inj (pure_eq_ok.mp hMember)
        obtain ⟨rfl, rfl⟩ := Prod.mk.inj hResult
        obtain ⟨gap, hGap, rfl⟩ := readColon_eq_ok hColon
        obtain ⟨gap', token, hGap', rfl, hAccepted⟩ := (read_accepts fuel).value hValue
        obtain ⟨body, all, rfl, hParts, rfl, hTags⟩ := ih hRest
        refine ⟨_, (key, x) :: all, by simp,
          .cons hLead (.pair hQuoted hGap hGap' hAccepted) hParts, ?_, ?_⟩
        · simp [hForm]
        · rw [← hTags]
          simp [hForm]

theorem shaped_eq_ok {node? : Option Node} {n : Node} (h : shaped node? = .ok n) :
    node? = some n := by
  cases node? with
  | none => cases h
  | some m => rw [Except.ok.inj h]

theorem readNode_accepts {fuel : Nat} {cs rest : List Char} {n : Node}
    (h : readNode fuel cs = .ok (n, rest)) :
    ∃ gap token j, Gap gap ∧ cs = gap ++ (token ++ rest) ∧ Accepted nestingLimit j token ∧
      j.Titled ∧ (Part.ofJson j).node? = some n := by
  obtain ⟨gap, hGap, hText⟩ := exists_gap cs
  unfold readNode at h
  split at h
  · cases h
  rename_i c cs' hSkip
  rw [hSkip] at hText
  split_ifs at h with hObject hArray
  · obtain ⟨⟨⟨form, members⟩, rest'⟩, hMembers, h⟩ := bind_eq_ok.mp h
    obtain ⟨n', hShaped, h⟩ := bind_eq_ok.mp h
    obtain ⟨rfl, rfl⟩ := Prod.mk.inj (pure_eq_ok.mp h)
    obtain ⟨form', rfl, hNode⟩ := Option.bind_eq_some_iff.mp (shaped_eq_ok hShaped)
    obtain ⟨body, all, rfl, hParts, rfl, hTags⟩ := readNodeMembers_accepts hMembers
    rw [← Part.node?_of_tag hTags] at hNode
    exact ⟨gap, _, _, hGap, by rw [hText, hObject]; simp, hParts.accepted_object, .object hTags,
      hNode⟩
  · obtain ⟨⟨more, cs₁⟩, hSeparator, h⟩ := bind_eq_ok.mp h
    cases more with
    | false => cases h
    | true =>
      obtain ⟨⟨form, cs₂⟩, hForm, h⟩ := bind_eq_ok.mp h
      obtain ⟨⟨items, cs₃⟩, hItems, h⟩ := bind_eq_ok.mp h
      obtain ⟨n', hShaped, h⟩ := bind_eq_ok.mp h
      obtain ⟨rfl, rfl⟩ := Prod.mk.inj (pure_eq_ok.mp h)
      obtain ⟨lead, hLead, rfl⟩ := readSeparator_eq_true hSeparator
      obtain ⟨gap', token, hGap', rfl, hSpelled⟩ := readForm_accepts hForm
      obtain ⟨body, rfl, hParts⟩ := (read_accepts fuel).items hItems
      have hAll := Parts.cons (hLead.append_gap hGap') (accepted_name hSpelled _) hParts
      refine ⟨gap, _, _, hGap, by rw [hText, hArray]; simp, hAll.accepted_array,
        .array form items, ?_⟩
      rw [Part.node?_array]
      exact shaped_eq_ok hShaped
  · obtain ⟨_, -, h⟩ := bind_eq_ok.mp h
    cases h

-- ----------------------------------------------------------------------------
-- What is spelled is read
-- ----------------------------------------------------------------------------

/-- The members of the outermost object in any order. -/
theorem readNodeMembers_spelled {all : List (String × Json)} {body : List Char} {first : Bool}
    (h : Parts (Member Spelled) first all body) (hDeep : membersDepth all ≤ nestingLimit - 1)
    {form form' : Option Form}
    (hTags : form.toList.map Form.tag ++ all.filter (·.1 == formKey) = form'.toList.map Form.tag)
    (rest : List Char) {fuel : Nat} (hFuel : 2 * body.length + 1 ≤ fuel) :
    readNodeMembers fuel form first (body ++ '}' :: rest) =
      .ok ((form', all.filter (·.1 != formKey)), rest) := by
  induction h generalizing fuel form with
  | nil hGap =>
    obtain ⟨fuel, rfl⟩ : ∃ f, fuel = f + 1 := ⟨fuel - 1, by omega⟩
    rw [readNodeMembers, readSeparator_stop (by decide) hGap]
    obtain rfl : form = form' := by
      cases form <;> cases form' <;> simp_all [Form.tag_injective.eq_iff]
    rfl
  | @cons first lead cs more m xs hLead hPart hMore ih =>
    obtain ⟨key, x⟩ := m
    obtain ⟨inner, colon, value, rfl, hValue, hKey, gap, hGap, hColon⟩ := hPart.reads_key
    simp only [List.length_append, List.length_cons] at hFuel
    obtain ⟨fuel, rfl⟩ : ∃ f, fuel = f + 1 := ⟨fuel - 1, by omega⟩
    obtain ⟨hDeepHead, hDeepTail⟩ := Nat.max_le.mp hDeep
    have hText : lead ++ ('"' :: (inner ++ (colon ++ value)) ++ more) ++ '}' :: rest =
        lead ++ '"' :: (inner ++ (colon ++ (value ++ (more ++ '}' :: rest)))) := by simp
    rw [hText, readNodeMembers, readSeparator_lead hLead (by decide) (by decide) (by decide)]
    refine bind_eq_ok.mpr ⟨_, rfl, bind_eq_ok.mpr ⟨_, hKey fuel _ (by omega), ?_⟩⟩
    have hClosed := hMore.closed (Or.inr rfl) rest
    have hFuelTail : 2 * more.length + 1 ≤ fuel := by omega
    by_cases hForm : key = formKey
    · -- the only tag: none was read before, and none follows
      rw [List.filter_cons_of_pos (by simp [hForm])] at hTags
      obtain ⟨rfl, form'', rfl⟩ : form = none ∧ ∃ f, form' = some f := by
        cases form <;> cases form' <;> simp at hTags ⊢
      obtain ⟨hTag, hNone⟩ := List.cons.inj hTags
      obtain rfl : x = .string form''.name := (Prod.mk.inj hTag).2
      have hRead := readForm_reads hValue.scalar_string hGap hClosed
        (show value.length ≤ fuel by omega)
      have hTagsTail : (some form'').toList.map Form.tag ++ xs.filter (·.1 == formKey) =
          (some form'').toList.map Form.tag := by
        rw [hNone]
        rfl
      have hRest := ih hDeepTail hTagsTail hFuelTail
      simp only [hForm, if_true, Option.isSome_none, Bool.false_eq_true, if_false]
      rw [List.filter_cons_of_neg (by simp)]
      exact bind_eq_ok.mpr ⟨_, hColon _, bind_eq_ok.mpr ⟨_, hRead, hRest⟩⟩
    · rw [List.filter_cons_of_neg (by simp [hForm])] at hTags
      have hRead := hValue.reads.read fuel (nestingLimit - 1) gap _ hGap hClosed (by omega)
      rw [within_of_le hDeepHead] at hRead
      have hRest := ih hDeepTail hTags hFuelTail
      simp only [hForm, if_false]
      rw [List.filter_cons_of_pos (by simp [hForm])]
      exact bind_eq_ok.mpr ⟨_, hColon _, bind_eq_ok.mpr ⟨_, hRead, bind_eq_ok.mpr ⟨_, hRest, rfl⟩⟩⟩

theorem Spelled.array_parts {items : List Json} {cs : List Char} (h : Spelled (.array items) cs) :
    ∃ body, cs = '[' :: (body ++ [']']) ∧ Parts Spelled true items body := by
  cases h with
  | scalar h => exact absurd h.depth_eq (by simp [depth])
  | array h => exact ⟨_, rfl, h⟩

theorem readNode_spelled {j : Json} {token : List Char} (h : Spelled j token) (hTitled : j.Titled)
    (hDeep : j.depth ≤ nestingLimit) {n : Node} (hNode : (Part.ofJson j).node? = some n)
    {gap rest : List Char} (hGap : Gap gap) {fuel : Nat} (hFuel : 2 * token.length ≤ fuel) :
    readNode fuel (gap ++ (token ++ rest)) = .ok (n, rest) := by
  cases hTitled with
  | @object form members hTags =>
    obtain ⟨body, rfl, hParts⟩ := h.object_parts
    rw [Part.node?_of_tag hTags] at hNode
    have hText : '{' :: (body ++ ['}']) ++ rest = '{' :: (body ++ '}' :: rest) := by simp
    have hFuelMembers : 2 * body.length + 1 ≤ fuel := by
      simp only [List.length_cons, List.length_append, List.length_nil] at hFuel
      omega
    have hForm : (none : Option Form).toList.map Form.tag ++ members.filter (·.1 == formKey) =
        (some form).toList.map Form.tag := hTags
    have hMembers := readNodeMembers_spelled hParts (Nat.le_sub_one_of_lt hDeep) hForm rest
      hFuelMembers
    rw [hText, readNode, skipGap_append hGap, skipGap_cons (by decide)]
    simp only [if_true]
    refine bind_eq_ok.mpr ⟨_, hMembers, bind_eq_ok.mpr ⟨n, ?_, rfl⟩⟩
    show shaped (form.ofMembers? _) = _
    rw [hNode]
    rfl
  | array form items =>
    obtain ⟨body, rfl, hParts⟩ := h.array_parts
    rw [Part.node?_array] at hNode
    cases hParts with
    | @cons _ lead cs more _ _ hLead hName hMore =>
      obtain ⟨c, inner, rfl, hStart, hStop, -⟩ := hName.reads.begun
      have hText : '[' :: (lead ++ (c :: inner ++ more) ++ [']']) ++ rest =
          '[' :: (lead ++ c :: (inner ++ (more ++ ']' :: rest))) := by simp
      have hLength : 2 * (lead.length + (inner.length + 1) + more.length + 2) ≤ fuel := by
        simp only [List.length_cons, List.length_append, List.length_nil] at hFuel
        omega
      have hForm := readForm_reads hName.scalar_string gap_nil
        (hMore.closed (Or.inl rfl) rest) (show (c :: inner).length ≤ fuel by simp; omega)
      have hItems := readItems_reads (hMore.imp fun _ _ hPart => hPart.reads) (nestingLimit - 1)
        rest (show 2 * more.length + 1 ≤ fuel by omega)
      have hDeepItems : itemsDepth items ≤ nestingLimit - 1 :=
        (Nat.max_le.mp (Nat.le_sub_one_of_lt hDeep)).2
      rw [within_of_le hDeepItems] at hItems
      rw [hText, readNode, skipGap_append hGap, skipGap_cons (by decide)]
      simp only [Char.reduceEq, if_false, if_true]
      rw [readSeparator_lead hLead (by decide) hStart hStop]
      refine bind_eq_ok.mpr ⟨_, rfl, bind_eq_ok.mpr ⟨_, hForm, bind_eq_ok.mpr ⟨_, hItems, ?_⟩⟩⟩
      refine bind_eq_ok.mpr ⟨n, ?_, rfl⟩
      rw [hNode]
      rfl

end Json

/-- **The texts that store a tree** are those that spell a titled value of its shape, not too
deep. -/
theorem Node.ofStored_iff {text : String} {n : Node} :
    Node.ofStored text = .ok n ↔ ∃ j : Json, j.SpelledBy text ∧ j.Titled ∧
      j.depth ≤ Json.nestingLimit ∧ (Part.ofJson j).node? = some n := by
  constructor
  · intro h
    obtain ⟨⟨n', rest⟩, hNode, h⟩ := Json.bind_eq_ok.mp h
    simp only at h
    split at h
    · rename_i hEnd
      obtain rfl := Json.pure_eq_ok.mp h
      obtain ⟨gap, token, j, hGap, hText, hAccepted, hTitled, hShape⟩ :=
        Json.readNode_accepts hNode
      obtain ⟨gap', hGap', hRest⟩ := Json.exists_gap rest
      rw [List.isEmpty_iff.mp hEnd, List.append_nil] at hRest
      rw [hRest] at hText
      exact ⟨j, ⟨gap, token, gap', hGap, hGap', hText, hAccepted.spelled⟩, hTitled,
        hAccepted.depth_le, hShape⟩
    · cases h
  · rintro ⟨j, ⟨gap, token, gap', hGap, hGap', hText, hSpelled⟩, hTitled, hDeep, hShape⟩
    have hFuel : 2 * token.length ≤ Json.readFuel text.toList.length := by
      rw [hText, Json.readFuel]
      simp only [List.length_append]
      omega
    have hRead : Json.readNode (Json.readFuel text.toList.length) (gap ++ (token ++ gap')) =
        .ok (n, gap') := Json.readNode_spelled hSpelled hTitled hDeep hShape hGap hFuel
    have hEnd : Json.skipGap gap' = [] := by
      have hSkip := Json.skipGap_append hGap' []
      rwa [List.append_nil] at hSkip
    refine Json.bind_eq_ok.mpr ⟨(n, gap'), ?_, ?_⟩
    · rw [← hRead, ← hText]
    · simp only [hEnd]
      rfl

end Zaban
