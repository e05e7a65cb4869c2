import Zaban.Json.Reader

/-!
# Texts that spell JSON values

`Spelled` says which texts spell a value, without reading them in any order and
with white space wherever the format allows it. Both forms that are written are
of this kind, so what is shown here of spelled texts holds of both.

A text without its strings is a text with brackets only, and how deep it
**nests** arrays and objects can be counted character by character
(`nesting`). `Spelled.nests` says that this is the depth of the value.

Words are fixed texts. Strings and numbers have many spellings; of theirs it is
asked that the reader reads them as the value, whatever follows.
-/

namespace Zaban.Json

-- ----------------------------------------------------------------------------
-- Depth
-- ----------------------------------------------------------------------------

mutual

/-- How many arrays and objects of a value are inside one another. -/
def depth : Json → Nat
  | array items => itemsDepth items + 1
  | object members => membersDepth members + 1
  | _ => 0

/-- The depth of the deepest item. -/
def itemsDepth : List Json → Nat
  | [] => 0
  | x :: xs => max (depth x) (itemsDepth xs)

/-- The depth of the deepest member. -/
def membersDepth : List (String × Json) → Nat
  | [] => 0
  | (_, x) :: rest => max (depth x) (membersDepth rest)

end

/-- Where in a text a character stands. -/
inductive Place where
  | between
  | quoted
  | escaped

/-- The place behind the character `c`. -/
def Place.next : Place → Char → Place
  | between, c => if c = '"' then quoted else between
  | quoted, c => if c = '"' then between else if c = '\\' then escaped else quoted
  | escaped, _ => quoted

/-- The number of open brackets behind the character `c`. Brackets in strings do not count. -/
def Place.level (place : Place) (level : Nat) (c : Char) : Nat :=
  match place with
  | between =>
    if c = '[' ∨ c = '{' then level + 1 else if c = ']' ∨ c = '}' then level - 1 else level
  | _ => level

/-- The largest number of brackets that are open at once, with `level` open ones to begin with. -/
def nestingFrom : Place → (level : Nat) → List Char → Nat
  | _, level, [] => level
  | place, level, c :: cs => max level (nestingFrom (place.next c) (place.level level c) cs)

/-- How deep a text nests arrays and objects. -/
def nesting (text : String) : Nat :=
  nestingFrom .between 0 text.toList

theorem le_nestingFrom (place : Place) (level : Nat) (cs : List Char) :
    level ≤ nestingFrom place level cs := by
  cases cs with
  | nil => exact Nat.le_refl level
  | cons c cs => exact Nat.le_max_left level _

/-- The characters nest `n` brackets and close them all. -/
def Nests (n : Nat) (cs : List Char) : Prop :=
  ∀ level rest, nestingFrom .between level (cs ++ rest) =
    max (level + n) (nestingFrom .between level rest)

section Nests

variable {n m : Nat} {cs ds : List Char}

theorem nests_nil : Nests 0 [] := by
  intro level rest
  have hLe := le_nestingFrom .between level rest
  rw [List.nil_append]
  omega

theorem Nests.append (h : Nests n cs) (h' : Nests m ds) : Nests (max n m) (cs ++ ds) := by
  intro level rest
  rw [List.append_assoc, h, h']
  omega

theorem nests_char {c : Char} (h : c ∉ ['"', '[', ']', '{', '}']) : Nests 0 [c] := by
  intro level rest
  simp only [List.mem_cons, List.not_mem_nil, or_false, not_or] at h
  obtain ⟨hQuote, hOpen, hClose, hOpen', hClose'⟩ := h
  rw [List.singleton_append, nestingFrom]
  simp only [Place.next, Place.level, hQuote, hOpen, hClose, hOpen', hClose', or_self, if_false]
  rfl

theorem nests_plain (h : ∀ c ∈ cs, c ∉ ['"', '[', ']', '{', '}']) : Nests 0 cs := by
  induction cs with
  | nil => exact nests_nil
  | cons c cs ih =>
    have hHead := nests_char (h c List.mem_cons_self)
    exact hHead.append (ih fun d hd => h d (List.mem_cons_of_mem c hd))

theorem Nests.bracket (h : Nests n cs) {o c : Char} (hOpen : o = '[' ∨ o = '{')
    (hClose : c = ']' ∨ c = '}') : Nests (n + 1) (o :: (cs ++ [c])) := by
  intro level rest
  have hStart : nestingFrom .between level (o :: (cs ++ [c]) ++ rest) =
      max level (nestingFrom .between (level + 1) (cs ++ c :: rest)) := by
    rw [List.cons_append, nestingFrom, List.append_assoc, List.singleton_append]
    rcases hOpen with rfl | rfl <;> rfl
  have hEnd : nestingFrom .between (level + 1) (c :: rest) =
      max (level + 1) (nestingFrom .between level rest) := by
    rw [nestingFrom]
    rcases hClose with rfl | rfl <;> rfl
  rw [hStart, h, hEnd]
  omega

end Nests

-- ----------------------------------------------------------------------------
-- Spellings
-- ----------------------------------------------------------------------------

/-- White space. -/
def Gap (cs : List Char) : Prop :=
  ∀ c ∈ cs, isGap c = true

/-- What stands before an item: white space, and a comma unless the item is the first. -/
inductive Lead : (first : Bool) → List Char → Prop where
  | first {gap : List Char} (hGap : Gap gap) : Lead true gap
  | comma {gap gap' : List Char} (hGap : Gap gap) (hGap' : Gap gap') :
      Lead false (gap ++ ',' :: gap')

/-- Nothing that belongs to a number comes next. -/
def Closed (cs : List Char) : Prop :=
  ∀ c ∈ cs.head?, c.isDigit = false ∧ c ≠ '.' ∧ c ≠ 'e' ∧ c ≠ 'E'

/-- The text is the string `s` in its quotes. -/
def Quoted (s : String) (cs : List Char) : Prop :=
  ∃ inner, cs = '"' :: inner ∧ Nests 0 cs ∧
    ∀ fuel rest, inner.length ≤ fuel → readText fuel (inner ++ rest) = .ok (s, rest)

/-- The text is a number, and reads as the value `j`. -/
def Numeral (j : Json) (cs : List Char) : Prop :=
  ∃ c inner, cs = c :: inner ∧ (c = '-' ∨ c.isDigit = true) ∧ j.depth = 0 ∧ Nests 0 cs ∧
    ∀ fuel rest, Closed rest → readScalar fuel c (inner ++ rest) = .ok (j, rest)

/-- The text is a value that is neither an array nor an object. -/
inductive Scalar : Json → List Char → Prop where
  | null : Scalar null ['n', 'u', 'l', 'l']
  | yes : Scalar (bool true) ['t', 'r', 'u', 'e']
  | no : Scalar (bool false) ['f', 'a', 'l', 's', 'e']
  | string {s : String} {cs : List Char} (h : Quoted s cs) : Scalar (string s) cs
  | number {j : Json} {cs : List Char} (h : Numeral j cs) : Scalar j cs

section Parts

variable {α : Type}

/-- The text between two brackets: parts with commas between them. -/
inductive Parts (part : α → List Char → Prop) : (first : Bool) → List α → List Char → Prop where
  | nil {first : Bool} {gap : List Char} (hGap : Gap gap) : Parts part first [] gap
  | cons {first : Bool} {lead cs more : List Char} {x : α} {xs : List α}
      (hLead : Lead first lead) (hPart : part x cs) (hMore : Parts part false xs more) :
      Parts part first (x :: xs) (lead ++ (cs ++ more))

end Parts

/-- The text of a member of an object: a key, a colon and a value. -/
inductive Member (value : Json → List Char → Prop) : String × Json → List Char → Prop where
  | pair {key : String} {x : Json} {ks gap gap' cs : List Char}
      (hKey : Quoted key ks) (hGap : Gap gap) (hGap' : Gap gap') (hValue : value x cs) :
      Member value (key, x) (ks ++ (gap ++ ':' :: (gap' ++ cs)))

/-- The text spells the value. -/
inductive Spelled : Json → List Char → Prop where
  | scalar {j : Json} {cs : List Char} (h : Scalar j cs) : Spelled j cs
  | array {items : List Json} {body : List Char} (h : Parts Spelled true items body) :
      Spelled (array items) ('[' :: (body ++ [']']))
  | object {members : List (String × Json)} {body : List Char}
      (h : Parts (Member Spelled) true members body) :
      Spelled (object members) ('{' :: (body ++ ['}']))

/-- **Induction over spellings.** What holds of scalars, and of arrays and objects if it holds of
their parts, holds of every spelled text. -/
theorem Spelled.induction {motive : Json → List Char → Prop}
    (hScalar : ∀ {j cs}, Scalar j cs → motive j cs)
    (hArray : ∀ {items body}, Parts motive true items body →
      motive (.array items) ('[' :: (body ++ [']'])))
    (hObject : ∀ {members body}, Parts (Member motive) true members body →
      motive (.object members) ('{' :: (body ++ ['}'])))
    {j : Json} {cs : List Char} (h : Spelled j cs) : motive j cs :=
  @Spelled.rec (fun j cs _ => motive j cs) (fun first items body _ => Parts motive first items body)
    (fun first members body _ => Parts (Member motive) first members body)
    (fun m cs _ => Member motive m cs)
    (fun h => hScalar h) (fun _ ih => hArray ih) (fun _ ih => hObject ih)
    (fun hGap => .nil hGap) (fun hLead _ _ ihPart ihMore => .cons hLead ihPart ihMore)
    (fun hGap => .nil hGap) (fun hLead _ _ ihPart ihMore => .cons hLead ihPart ihMore)
    (fun hKey hGap hGap' _ ihValue => .pair hKey hGap hGap' ihValue) j cs h

-- ----------------------------------------------------------------------------
-- Spelled texts nest as deep as their values
-- ----------------------------------------------------------------------------

theorem Parts.imp {α : Type} {part part' : α → List Char → Prop}
    (hImp : ∀ x cs, part x cs → part' x cs) {first : Bool} {xs : List α} {body : List Char}
    (h : Parts part first xs body) : Parts part' first xs body := by
  induction h with
  | nil hGap => exact .nil hGap
  | cons hLead hPart _ ih => exact .cons hLead (hImp _ _ hPart) ih

theorem mem_gaps {c : Char} (h : isGap c = true) : c ∈ [' ', '\n', '\t', '\r'] :=
  List.contains_iff_mem.mp h

theorem Gap.nests {cs : List Char} (h : Gap cs) : Nests 0 cs := by
  have hAll : ∀ c ∈ [' ', '\n', '\t', '\r'], c ∉ ['"', '[', ']', '{', '}'] := by simp
  exact nests_plain fun c hc => hAll c (mem_gaps (h c hc))

theorem Lead.nests {first : Bool} {cs : List Char} (h : Lead first cs) : Nests 0 cs := by
  cases h with
  | first hGap => exact hGap.nests
  | comma hGap hGap' => exact hGap.nests.append ((nests_char (by decide)).append hGap'.nests)

theorem Scalar.nests {j : Json} {cs : List Char} (h : Scalar j cs) : Nests 0 cs := by
  cases h with
  | null | yes | no => exact nests_plain (by simp)
  | string h =>
    obtain ⟨_, _, hNests, -⟩ := h
    exact hNests
  | number h =>
    obtain ⟨_, _, _, _, _, hNests, -⟩ := h
    exact hNests

theorem Scalar.depth_eq {j : Json} {cs : List Char} (h : Scalar j cs) : j.depth = 0 := by
  cases h with
  | null | yes | no | string => rfl
  | number h =>
    obtain ⟨_, _, _, _, hDepth, -⟩ := h
    exact hDepth

/-- Parts nest as deep as the deepest of them. -/
theorem Parts.nests {α : Type} {d : α → Nat} {first : Bool} {xs : List α} {body : List Char}
    (h : Parts (fun x cs => Nests (d x) cs) first xs body) :
    Nests (xs.foldr (fun x n => max (d x) n) 0) body := by
  induction h with
  | nil hGap => exact hGap.nests
  | cons hLead hPart _ ih => simpa using hLead.nests.append (hPart.append ih)

theorem itemsDepth_eq (items : List Json) :
    itemsDepth items = items.foldr (fun x n => max x.depth n) 0 := by
  induction items with
  | nil => rfl
  | cons x xs ih => rw [itemsDepth, ih, List.foldr_cons]

theorem membersDepth_eq (members : List (String × Json)) :
    membersDepth members = members.foldr (fun m n => max m.2.depth n) 0 := by
  induction members with
  | nil => rfl
  | cons m ms ih => rw [membersDepth, ih, List.foldr_cons]

theorem Member.nests {m : String × Json} {cs : List Char}
    (h : Member (fun j cs => Nests j.depth cs) m cs) : Nests m.2.depth cs := by
  cases h with
  | pair hKey hGap hGap' hValue =>
    obtain ⟨_, _, hQuoted, -⟩ := hKey
    have hColon : Nests 0 [':'] := nests_char (by decide)
    simpa using hQuoted.append (hGap.nests.append (hColon.append (hGap'.nests.append hValue)))

theorem Spelled.nests {j : Json} {cs : List Char} (h : Spelled j cs) : Nests j.depth cs := by
  refine Spelled.induction (motive := fun j cs => Nests j.depth cs) ?_ ?_ ?_ h
  · intro j cs hScalar
    rw [hScalar.depth_eq]
    exact hScalar.nests
  · intro items body hItems
    rw [depth, itemsDepth_eq]
    exact hItems.nests.bracket (Or.inl rfl) (Or.inl rfl)
  · intro members body hMembers
    rw [depth, membersDepth_eq]
    exact (hMembers.imp fun _ _ => Member.nests).nests.bracket (Or.inr rfl) (Or.inr rfl)

theorem nesting_of_nests {n : Nat} {text : String} (h : Nests n text.toList) :
    nesting text = n := by
  have hNests := h 0 []
  rw [List.append_nil] at hNests
  rw [nesting, hNests]
  simp [nestingFrom]

/-- **A text nests as deep as the value that it spells.** -/
theorem Spelled.nesting_eq {j : Json} {text : String} (h : Spelled j text.toList) :
    nesting text = j.depth :=
  nesting_of_nests h.nests

end Zaban.Json
