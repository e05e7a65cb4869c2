import Zaban.Proofs.Json.Spelling

/-!
# Reading spelled texts

The reader gives the value that a text spells, and the text behind it, exactly
if the value is no deeper than the arrays and objects that may still be opened;
otherwise it stops at the first bracket beyond them (`Spelled.reads`). Nothing
else can go wrong in a spelled text. Every character needs at most two portions
of fuel.
-/

namespace Zaban.Json

-- ----------------------------------------------------------------------------
-- White space and separators
-- ----------------------------------------------------------------------------

theorem skipGap_append {gap : List Char} (h : Gap gap) (cs : List Char) :
    skipGap (gap ++ cs) = skipGap cs :=
  List.dropWhile_append_of_pos h

theorem skipGap_cons {c : Char} (h : isGap c = false) (cs : List Char) :
    skipGap (c :: cs) = c :: cs := by
  rw [skipGap, List.dropWhile_cons_of_neg (by simp [h])]

theorem readSeparator_stop {stop : Char} (hStop : isGap stop = false) {gap : List Char}
    (hGap : Gap gap) (first : Bool) (cs : List Char) :
    readSeparator stop first (gap ++ stop :: cs) = .ok (false, cs) := by
  rw [readSeparator, skipGap_append hGap, skipGap_cons hStop]
  simp only [if_true]

theorem readSeparator_lead {first : Bool} {lead : List Char} (h : Lead first lead) {stop c : Char}
    (hStop : ',' ≠ stop) (hGap : isGap c = false) (hc : c ≠ stop) (cs : List Char) :
    readSeparator stop first (lead ++ c :: cs) = .ok (true, c :: cs) := by
  cases h with
  | first hLead =>
    rw [readSeparator, skipGap_append hLead, skipGap_cons hGap]
    simp only [hc, if_false, if_true]
  | comma hLead hLead' =>
    rw [List.append_assoc, List.cons_append, readSeparator, skipGap_append hLead,
      skipGap_cons (by decide)]
    simp only [hStop, if_false, if_true, Bool.false_eq_true]
    rw [skipGap_append hLead', skipGap_cons hGap]
    simp only [hc, if_false]

/-- Characters that end a number. -/
theorem closed_cons {c : Char} (h : c ∈ [' ', '\n', '\t', '\r', ',', ']', '}', ':'])
    (cs : List Char) : Closed (c :: cs) := by
  intro d hd
  obtain rfl : c = d := by simpa using hd
  have hAll : ∀ c ∈ [' ', '\n', '\t', '\r', ',', ']', '}', ':'],
      c.isDigit = false ∧ c ≠ '.' ∧ c ≠ 'e' ∧ c ≠ 'E' := by simp
  exact hAll c h

theorem Gap.closed {gap : List Char} (h : Gap gap) {cs : List Char} (hcs : Closed cs) :
    Closed (gap ++ cs) := by
  cases gap with
  | nil => exact hcs
  | cons c gap =>
    have hMem := mem_gaps (h c List.mem_cons_self)
    exact closed_cons (List.mem_append_left [',', ']', '}', ':'] hMem) _

/-- What follows a part of an array or object ends a number. -/
theorem Parts.closed {α : Type} {part : α → List Char → Prop} {xs : List α} {more : List Char}
    (h : Parts part false xs more) {stop : Char} (hStop : stop = ']' ∨ stop = '}')
    (rest : List Char) : Closed (more ++ stop :: rest) := by
  have hEnd : Closed (stop :: rest) := closed_cons (by rcases hStop with rfl | rfl <;> decide) rest
  cases h with
  | nil hGap => exact hGap.closed hEnd
  | cons hLead =>
    cases hLead with
    | comma hGap =>
      rw [List.append_assoc, List.append_assoc]
      exact hGap.closed (closed_cons (by decide) _)

-- ----------------------------------------------------------------------------
-- Scalars
-- ----------------------------------------------------------------------------

/-- A text does not begin with white space or a closing bracket. -/
def Begun (cs : List Char) : Prop :=
  ∃ c inner, cs = c :: inner ∧ isGap c = false ∧ c ≠ ']' ∧ c ≠ '}'

theorem begun_of_mem {c : Char} (h : c ∉ [' ', '\n', '\t', '\r', ']', '}']) (inner : List Char) :
    Begun (c :: inner) := by
  simp only [List.mem_cons, List.not_mem_nil, or_false, not_or] at h
  obtain ⟨hSpace, hLine, hTab, hReturn, hBracket, hBrace⟩ := h
  refine ⟨c, inner, rfl, ?_, hBracket, hBrace⟩
  simp [isGap, hSpace, hLine, hTab, hReturn]

theorem Scalar.reads {j : Json} {cs : List Char} (h : Scalar j cs) :
    ∃ c inner, cs = c :: inner ∧ c ∉ [' ', '\n', '\t', '\r', '[', ']', '{', '}'] ∧
      ∀ fuel rest, inner.length ≤ fuel → Closed rest →
        readScalar fuel c (inner ++ rest) = .ok (j, rest) := by
  cases h with
  | null => exact ⟨'n', _, rfl, by decide, fun _ _ _ _ => rfl⟩
  | yes => exact ⟨'t', _, rfl, by decide, fun _ _ _ _ => rfl⟩
  | no => exact ⟨'f', _, rfl, by decide, fun _ _ _ _ => rfl⟩
  | string h =>
    obtain ⟨inner, rfl, -, hRead⟩ := h
    refine ⟨'"', inner, rfl, by decide, ?_⟩
    intro fuel rest hFuel _
    have hText := hRead fuel rest hFuel
    simp [readScalar, hText, bind, Except.bind, pure, Except.pure]
  | number h =>
    obtain ⟨c, inner, rfl, hStart, -, -, hRead⟩ := h
    refine ⟨c, inner, rfl, ?_, fun fuel rest _ hRest => hRead fuel rest hRest⟩
    intro hMem
    have hAll : ∀ c ∈ [' ', '\n', '\t', '\r', '[', ']', '{', '}'], c ≠ '-' ∧ c.isDigit = false := by
      simp
    obtain ⟨hMinus, hDigit⟩ := hAll c hMem
    rcases hStart with hStart | hStart
    · exact hMinus hStart
    · rw [hDigit] at hStart
      cases hStart

-- ----------------------------------------------------------------------------
-- Values
-- ----------------------------------------------------------------------------

/-- The outcome of reading something of the depth `n` where brackets may be opened `limit` deep. -/
def within {α : Type} (n limit : Nat) (a : α) : Reading α :=
  if n ≤ limit then .ok a else .error .malformed

section Within

variable {α β : Type} {n m limit : Nat} {a : α} {b : β}

theorem within_bind {f : α → Reading β} (h : f a = within m limit b) :
    (within n limit a >>= f) = within (max n m) limit b := by
  unfold within at *
  by_cases hn : n ≤ limit
  · rw [if_pos hn]
    show f a = _
    rw [h]
    simp only [Nat.max_le, hn, true_and]
  · rw [if_neg hn, if_neg fun hMax => hn (Nat.max_le.mp hMax).1]
    rfl

theorem within_zero (limit : Nat) (a : α) : within 0 limit a = .ok a :=
  if_pos (Nat.zero_le limit)

theorem within_map (f : α → β) :
    (within n limit a >>= fun a => pure (f a)) = within n limit (f a) := by
  unfold within
  split <;> rfl

end Within

/-- The reader reads the text as the value, if it may open as many brackets. -/
structure Reads (j : Json) (cs : List Char) : Prop where
  begun : Begun cs
  read  : ∀ fuel limit gap rest, Gap gap → Closed rest → 2 * cs.length ≤ fuel →
    readValue fuel limit (gap ++ (cs ++ rest)) = within j.depth limit (j, rest)

theorem Reads.read_next {x : Json} {cs : List Char} (h : Reads x cs) {limit fuel : Nat}
    {rest : List Char} (hRest : Closed rest) (hFuel : 2 * cs.length ≤ fuel) :
    readValue fuel limit (cs ++ rest) = within x.depth limit (x, rest) :=
  h.read fuel limit [] rest (by rintro _ ⟨⟩) hRest hFuel

theorem Scalar.reads_value {j : Json} {cs : List Char} (h : Scalar j cs) : Reads j cs := by
  have hDepth := h.depth_eq
  obtain ⟨c, inner, rfl, hStart, hRead⟩ := h.reads
  have hBegun : Begun (c :: inner) := begun_of_mem (by grind) inner
  refine ⟨hBegun, ?_⟩
  intro fuel limit gap rest hGap hRest hFuel
  rw [List.length_cons] at hFuel
  obtain ⟨fuel, rfl⟩ : ∃ f, fuel = f + 1 := ⟨fuel - 1, by omega⟩
  obtain ⟨_, _, hEq, hNoGap, -⟩ := hBegun
  obtain ⟨rfl, -⟩ := List.cons.inj hEq
  simp only [List.mem_cons, List.not_mem_nil, or_false, not_or] at hStart
  rw [readValue, skipGap_append hGap, List.cons_append, skipGap_cons hNoGap, hDepth, within_zero]
  simp only [hStart, if_false]
  exact hRead fuel rest (by omega) hRest

section Compound

variable {fuel : Nat} {first : Bool} {body : List Char}

theorem readItems_reads {items : List Json} (h : Parts Reads first items body) (limit : Nat)
    (rest : List Char) (hFuel : 2 * body.length + 1 ≤ fuel) :
    readItems fuel limit first (body ++ ']' :: rest) =
      within (itemsDepth items) limit (items, rest) := by
  induction h generalizing fuel with
  | nil hGap =>
    obtain ⟨fuel, rfl⟩ : ∃ f, fuel = f + 1 := ⟨fuel - 1, by omega⟩
    rw [readItems, readSeparator_stop (by decide) hGap]
    exact (within_zero limit _).symm
  | @cons first lead cs more x xs hLead hPart hMore ih =>
    simp only [List.length_append] at hFuel
    obtain ⟨c, inner, rfl, hGap, hStop, -⟩ := hPart.begun
    rw [List.length_cons] at hFuel
    obtain ⟨fuel, rfl⟩ : ∃ f, fuel = f + 1 := ⟨fuel - 1, by omega⟩
    have hText : lead ++ (c :: inner ++ more) ++ ']' :: rest =
        lead ++ c :: (inner ++ (more ++ ']' :: rest)) := by simp
    have hValue : readValue fuel limit (c :: (inner ++ (more ++ ']' :: rest))) = _ :=
      hPart.read_next (hMore.closed (Or.inl rfl) rest) (by rw [List.length_cons]; omega)
    rw [hText, readItems, readSeparator_lead hLead (by decide) hGap hStop]
    show (readValue fuel limit _ >>= fun y => readItems fuel limit false y.2 >>= fun z =>
      pure (y.1 :: z.1, z.2)) = _
    rw [hValue, itemsDepth]
    refine within_bind ?_
    rw [ih (by omega)]
    exact within_map fun z : List Json × List Char => (x :: z.1, z.2)

/-- The key of a member, its colon and the text of its value. -/
theorem Member.reads_key {value : Json → List Char → Prop} {key : String} {x : Json}
    {cs : List Char} (h : Member value (key, x) cs) :
    ∃ inner colon text, cs = '"' :: (inner ++ (colon ++ text)) ∧ value x text ∧
      (∀ fuel rest, inner.length ≤ fuel →
        readKey fuel ('"' :: (inner ++ rest)) = .ok (key, rest)) ∧
      ∃ gap, Gap gap ∧ ∀ rest, readColon (colon ++ rest) = .ok (gap ++ rest) := by
  cases h with
  | @pair _ _ ks gap gap' text hKey hGap hGap' hValue =>
    obtain ⟨inner, rfl, -, hRead⟩ := hKey
    refine ⟨inner, gap ++ ':' :: gap', text, by simp, hValue, ?_, gap', hGap', ?_⟩
    · intro fuel rest hFuel
      rw [readKey, if_pos rfl, hRead fuel rest hFuel]
    · intro rest
      rw [List.append_assoc, readColon, skipGap_append hGap, List.cons_append,
        skipGap_cons (by decide)]
      rfl

theorem readMembers_reads {members : List (String × Json)}
    (h : Parts (Member Reads) first members body) (limit : Nat) (rest : List Char)
    (hFuel : 2 * body.length + 1 ≤ fuel) :
    readMembers fuel limit first (body ++ '}' :: rest) =
      within (membersDepth members) limit (members, rest) := by
  induction h generalizing fuel with
  | nil hGap =>
    obtain ⟨fuel, rfl⟩ : ∃ f, fuel = f + 1 := ⟨fuel - 1, by omega⟩
    rw [readMembers, readSeparator_stop (by decide) hGap]
    exact (within_zero limit _).symm
  | @cons first lead cs more m xs hLead hPart hMore ih =>
    obtain ⟨key, x⟩ := m
    obtain ⟨inner, colon, value, rfl, hReads, hKey, gap, hGap, hColon⟩ := hPart.reads_key
    simp only [List.length_append, List.length_cons] at hFuel
    obtain ⟨fuel, rfl⟩ : ∃ f, fuel = f + 1 := ⟨fuel - 1, by omega⟩
    have hText : lead ++ ('"' :: (inner ++ (colon ++ value)) ++ more) ++ '}' :: rest =
        lead ++ '"' :: (inner ++ (colon ++ (value ++ (more ++ '}' :: rest)))) := by simp
    rw [hText, readMembers, readSeparator_lead hLead (by decide) (by decide) (by decide)]
    show (readKey fuel _ >>= fun k => readColon k.2 >>= fun cs => readValue fuel limit cs >>=
      fun y => readMembers fuel limit false y.2 >>= fun z => pure ((k.1, y.1) :: z.1, z.2)) = _
    rw [hKey fuel _ (by omega)]
    show (readColon _ >>= fun cs => readValue fuel limit cs >>= fun y =>
      readMembers fuel limit false y.2 >>= fun z => pure ((key, y.1) :: z.1, z.2)) = _
    rw [hColon]
    show (readValue fuel limit _ >>= fun y => readMembers fuel limit false y.2 >>= fun z =>
      pure ((key, y.1) :: z.1, z.2)) = _
    rw [hReads.read fuel limit gap _ hGap (hMore.closed (Or.inr rfl) rest) (by omega), membersDepth]
    refine within_bind ?_
    rw [ih (by omega)]
    exact within_map fun z : List (String × Json) × List Char => ((key, x) :: z.1, z.2)

end Compound

/-- One more bracket may be opened if the limit is not reached. -/
theorem readValue_bracket {α : Type} {read : Nat → Reading α} {limit n : Nat} {a : α}
    (h : ∀ limit, read limit = within n limit a) :
    (match limit with
      | 0 => .error .malformed
      | limit + 1 => read limit) = within (n + 1) limit a := by
  cases limit with
  | zero => rfl
  | succ limit =>
    show read limit = _
    rw [h]
    simp [within]

/-- **A spelled text is read as the value that it spells**, or is too deep. -/
theorem Spelled.reads {j : Json} {cs : List Char} (h : Spelled j cs) : Reads j cs := by
  refine Spelled.induction Scalar.reads_value ?_ ?_ h
  · intro items body hItems
    refine ⟨begun_of_mem (by decide) _, ?_⟩
    intro fuel limit gap rest hGap hRest hFuel
    simp only [List.length_cons, List.length_append] at hFuel
    obtain ⟨fuel, rfl⟩ : ∃ f, fuel = f + 1 := ⟨fuel - 1, by omega⟩
    have hText : '[' :: (body ++ [']']) ++ rest = '[' :: (body ++ ']' :: rest) := by simp
    rw [hText, readValue, skipGap_append hGap, skipGap_cons (by decide)]
    simp only [if_true]
    refine readValue_bracket fun limit => ?_
    rw [readItems_reads hItems limit rest (by omega)]
    exact within_map fun x : List Json × List Char => (Json.array x.1, x.2)
  · intro members body hMembers
    refine ⟨begun_of_mem (by decide) _, ?_⟩
    intro fuel limit gap rest hGap hRest hFuel
    simp only [List.length_cons, List.length_append] at hFuel
    obtain ⟨fuel, rfl⟩ : ∃ f, fuel = f + 1 := ⟨fuel - 1, by omega⟩
    have hText : '{' :: (body ++ ['}']) ++ rest = '{' :: (body ++ '}' :: rest) := by simp
    rw [hText, readValue, skipGap_append hGap, skipGap_cons (by decide)]
    simp only [if_true]
    refine readValue_bracket fun limit => ?_
    rw [readMembers_reads hMembers limit rest (by omega)]
    exact within_map fun x : List (String × Json) × List Char => (Json.object x.1, x.2)

end Zaban.Json
