import Zaban.Proofs.Json.Numbers

/-!
# Written texts are spelled texts

The compact and the pretty form differ in white space only: each is a
**printer** that puts white space of its own between the same texts
(`Prints`). What a printer writes spells the value, but for its numbers, which
are read as the reader converts them (`Prints.spelled`). Strings are read as
they were, whatever characters they hold.
-/

namespace Zaban.Json

-- ----------------------------------------------------------------------------
-- Strings
-- ----------------------------------------------------------------------------

theorem hex_digitChar : ∀ d < 16, hexValue? d.digitChar = some d ∧ d.digitChar.utf8Size = 1 ∧
    d.digitChar ≠ '"' ∧ d.digitChar ≠ '\\' := by decide

/-- A character is written as a letter behind a backslash, as four digits, or as it is. -/
theorem escapeChar_cases (c : Char) :
    (∃ letter, escapeChar c = ['\\', letter] ∧ letter ≠ 'u' ∧ escapeLetter? letter = some c) ∨
    (c.toNat < 0x20 ∧ escapeChar c =
      ['\\', 'u', '0', '0', (c.toNat / 16).digitChar, (c.toNat % 16).digitChar]) ∨
    (c ≠ '"' ∧ c ≠ '\\' ∧ ¬ c.toNat < 0x20 ∧ escapeChar c = [c]) := by
  have hLetter : ∀ {d letter : Char}, c = d → escapeChar d = ['\\', letter] → letter ≠ 'u' →
      escapeLetter? letter = some d →
      ∃ letter, escapeChar c = ['\\', letter] ∧ letter ≠ 'u' ∧ escapeLetter? letter = some c := by
    rintro d letter rfl hText hOther hValue
    exact ⟨letter, hText, hOther, hValue⟩
  by_cases hQuote : c = '"'
  · exact Or.inl (hLetter hQuote rfl (by decide) rfl)
  by_cases hSlash : c = '\\'
  · exact Or.inl (hLetter hSlash rfl (by decide) rfl)
  by_cases hBack : c = '\x08'
  · exact Or.inl (hLetter hBack rfl (by decide) rfl)
  by_cases hFeed : c = '\x0c'
  · exact Or.inl (hLetter hFeed rfl (by decide) rfl)
  by_cases hLine : c = '\n'
  · exact Or.inl (hLetter hLine rfl (by decide) rfl)
  by_cases hReturn : c = '\r'
  · exact Or.inl (hLetter hReturn rfl (by decide) rfl)
  by_cases hTab : c = '\t'
  · exact Or.inl (hLetter hTab rfl (by decide) rfl)
  by_cases hControl : c.toNat < 0x20
  · refine Or.inr (Or.inl ⟨hControl, ?_⟩)
    simp only [escapeChar, hQuote, hSlash, hBack, hFeed, hLine, hReturn, hTab, hControl, if_false,
      if_true]
  · refine Or.inr (Or.inr ⟨hQuote, hSlash, hControl, ?_⟩)
    simp only [escapeChar, hQuote, hSlash, hBack, hFeed, hLine, hReturn, hTab, hControl, if_false]

theorem readUnit_control {n : Nat} (h : n < 0x20) (cs : List Char) :
    readUnit ('0' :: '0' :: (n / 16).digitChar :: (n % 16).digitChar :: cs) = .ok (n, cs) := by
  obtain ⟨hHigh, hHighSize, -⟩ := hex_digitChar (n / 16) (by omega)
  obtain ⟨hLow, hLowSize, -⟩ := hex_digitChar (n % 16) (by omega)
  have hZero : hexValue? '0' = some 0 := by decide
  have hLong : underFourBytes ('0' :: '0' :: (n / 16).digitChar :: (n % 16).digitChar :: cs) =
      false := by
    have hZeroSize : '0'.utf8Size = 1 := by decide
    simp [underFourBytes, hHighSize, hLowSize, hZeroSize]
  have hValue : ((0 * 16 + 0) * 16 + n / 16) * 16 + n % 16 = n := by omega
  rw [readUnit, hLong]
  simp only [hHigh, hLow, hZero, hValue, Bool.false_eq_true, if_false]

theorem readCodePoint_control {c : Char} (h : c.toNat < 0x20) (cs : List Char) :
    readCodePoint ('0' :: '0' :: (c.toNat / 16).digitChar :: (c.toNat % 16).digitChar :: cs) =
      .ok (c, cs) := by
  have hLow : isLowSurrogate c.toNat = false := by
    simp only [isLowSurrogate, Bool.and_eq_false_iff, decide_eq_false_iff_not]
    omega
  have hHigh : isHighSurrogate c.toNat = false := by
    simp only [isHighSurrogate, Bool.and_eq_false_iff, decide_eq_false_iff_not]
    omega
  rw [readCodePoint, readUnit_control h]
  show (if isLowSurrogate c.toNat = true then _ else
    if isHighSurrogate c.toNat = true then _ else pure (Char.ofNat c.toNat, cs)) = _
  rw [hLow, hHigh, Char.ofNat_toNat]
  rfl

/-- An escaped character is read as the character. -/
theorem readString_escapeChar (c : Char) (fuel : Nat) (cs : List Char) :
    readString (fuel + 1) (escapeChar c ++ cs) =
      readString fuel cs >>= fun x => pure (c :: x.1, x.2) := by
  rcases escapeChar_cases c with ⟨letter, hText, hOther, hValue⟩ | ⟨hControl, hText⟩ |
    ⟨hQuote, hSlash, hControl, hText⟩
  · have hEscape : readEscape (letter :: cs) = .ok (c, cs) := by
      simp only [readEscape, hOther, if_false, hValue]
    rw [hText, List.cons_append, List.singleton_append, readString]
    simp only [Char.reduceEq, if_false, if_true, hEscape]
    rfl
  · have hEscape := readCodePoint_control hControl cs
    rw [hText, List.cons_append, readString]
    simp only [Char.reduceEq, if_false, if_true, List.cons_append, List.nil_append, readEscape,
      hEscape]
    rfl
  · rw [hText, List.singleton_append, readString]
    simp only [hQuote, hSlash, hControl, if_false]

/-- An escaped character does not end the string that it stands in. -/
theorem nestingFrom_escapeChar (c : Char) (level : Nat) (cs : List Char) :
    nestingFrom .quoted level (escapeChar c ++ cs) = nestingFrom .quoted level cs := by
  have hPlain : ∀ {d : Char} {ds : List Char}, d ≠ '"' → d ≠ '\\' →
      nestingFrom .quoted level (d :: ds) = nestingFrom .quoted level ds := by
    intro d ds hQuote hSlash
    rw [nestingFrom, Place.next, if_neg hQuote, if_neg hSlash]
    exact Nat.max_eq_right (le_nestingFrom _ _ _)
  have hEscaped : ∀ {d : Char} {ds : List Char},
      nestingFrom .quoted level ('\\' :: d :: ds) = nestingFrom .quoted level ds := by
    intro d ds
    have hLe := le_nestingFrom .quoted level ds
    show max level (max level (nestingFrom .quoted level ds)) = _
    omega
  rcases escapeChar_cases c with ⟨letter, hText, -⟩ | ⟨hControl, hText⟩ | ⟨hQuote, hSlash, -, hText⟩
  · rw [hText]
    exact hEscaped
  · obtain ⟨-, -, hQuote, hSlash⟩ := hex_digitChar (c.toNat / 16) (by omega)
    obtain ⟨-, -, hQuote', hSlash'⟩ := hex_digitChar (c.toNat % 16) (by omega)
    rw [hText]
    simp only [List.cons_append, List.nil_append]
    rw [hEscaped, hPlain (by decide) (by decide), hPlain (by decide) (by decide),
      hPlain hQuote hSlash, hPlain hQuote' hSlash']
  · rw [hText]
    exact hPlain hQuote hSlash

theorem escapeChar_length_pos (c : Char) : 0 < (escapeChar c).length := by
  rcases escapeChar_cases c with ⟨_, hText, -⟩ | ⟨-, hText⟩ | ⟨-, -, -, hText⟩
  all_goals
    rw [hText]
    simp

theorem readString_escaped (s : List Char) {fuel : Nat}
    (hFuel : (s.flatMap escapeChar).length + 1 ≤ fuel) (rest : List Char) :
    readString fuel (s.flatMap escapeChar ++ '"' :: rest) = .ok (s, rest) := by
  induction s generalizing fuel with
  | nil =>
    obtain ⟨fuel, rfl⟩ : ∃ f, fuel = f + 1 := ⟨fuel - 1, by omega⟩
    rfl
  | cons c s ih =>
    have hPos := escapeChar_length_pos c
    rw [List.flatMap_cons, List.length_append] at hFuel
    obtain ⟨fuel, rfl⟩ : ∃ f, fuel = f + 1 := ⟨fuel - 1, by omega⟩
    rw [List.flatMap_cons, List.append_assoc, readString_escapeChar, ih (by omega)]
    rfl

theorem nestingFrom_escaped (s : List Char) (level : Nat) (rest : List Char) :
    nestingFrom .quoted level (s.flatMap escapeChar ++ '"' :: rest) =
      max level (nestingFrom .between level rest) := by
  induction s with
  | nil => rfl
  | cons c s ih => rw [List.flatMap_cons, List.append_assoc, nestingFrom_escapeChar, ih]

/-- **Every string is read back**, whatever characters it holds. -/
theorem stringText_quoted (s : String) : Quoted s (stringText s).toList := by
  rw [stringText, String.toList_ofList, List.cons_append]
  refine ⟨_, rfl, ?_, ?_⟩
  · intro level rest
    have hLe := le_nestingFrom .between level rest
    have hInner := nestingFrom_escaped s.toList level rest
    rw [List.cons_append, List.append_assoc, List.singleton_append, nestingFrom]
    show max level (nestingFrom .quoted level _) = _
    rw [hInner]
    omega
  · intro fuel rest hFuel
    rw [List.length_append, List.length_singleton] at hFuel
    rw [readText, List.append_assoc, List.singleton_append, readString_escaped _ hFuel]
    show (pure (String.ofList s.toList, rest) : Reading _) = _
    rw [String.ofList_toList]
    rfl

-- ----------------------------------------------------------------------------
-- Printers
-- ----------------------------------------------------------------------------

mutual

/-- The value with its numbers changed. -/
def mapReals (f : Float → Float) : Json → Json
  | real x => real (f x)
  | array items => array (mapRealsItems f items)
  | object members => object (mapRealsMembers f members)
  | j => j

/-- Items with their numbers changed. -/
def mapRealsItems (f : Float → Float) : List Json → List Json
  | [] => []
  | x :: xs => mapReals f x :: mapRealsItems f xs

/-- Members with their numbers changed. -/
def mapRealsMembers (f : Float → Float) : List (String × Json) → List (String × Json)
  | [] => []
  | (key, x) :: rest => (key, mapReals f x) :: mapRealsMembers f rest

end

mutual

theorem depth_mapReals (f : Float → Float) : ∀ j : Json, (mapReals f j).depth = j.depth
  | .array items => by rw [mapReals, depth, itemsDepth_mapReals f items, depth]
  | .object members => by rw [mapReals, depth, membersDepth_mapReals f members, depth]
  | .null | .bool _ | .integer _ | .real _ | .string _ => rfl

theorem itemsDepth_mapReals (f : Float → Float) :
    ∀ items : List Json, itemsDepth (mapRealsItems f items) = itemsDepth items
  | [] => rfl
  | x :: xs => by
    rw [mapRealsItems, itemsDepth, depth_mapReals f x, itemsDepth_mapReals f xs, itemsDepth]

theorem membersDepth_mapReals (f : Float → Float) :
    ∀ members : List (String × Json),
      membersDepth (mapRealsMembers f members) = membersDepth members
  | [] => rfl
  | (_, x) :: rest => by
    rw [mapRealsMembers, membersDepth, depth_mapReals f x, membersDepth_mapReals f rest,
      membersDepth]

end

mutual

/-- The reader converts the numbers of the value by `f`, and there are no whole words. -/
def Converts (f : Float → Float) : Json → Prop
  | integer _ => False
  | real x => reread? x = some (f x)
  | array items => ItemsConvert f items
  | object members => MembersConvert f members
  | _ => True

/-- The reader converts the numbers of the items by `f`. -/
def ItemsConvert (f : Float → Float) : List Json → Prop
  | [] => True
  | x :: xs => Converts f x ∧ ItemsConvert f xs

/-- The reader converts the numbers of the members by `f`. -/
def MembersConvert (f : Float → Float) : List (String × Json) → Prop
  | [] => True
  | (_, x) :: rest => Converts f x ∧ MembersConvert f rest

end

/-- A way to write values: scalars as in the compact form, items and members one behind another with
white space between them. -/
structure Prints (p : (level : Nat) → Json → String) : Prop where
  scalar : ∀ level j, (∀ items, j ≠ array items) → (∀ members, j ≠ object members) →
    p level j = compact j
  array : ∀ level items, ∃ gap sep close, Gap gap ∧ Gap sep ∧ Gap close ∧
    (p level (array items)).toList = '[' :: (gap ++ (List.intercalate (',' :: sep)
      (items.map fun x => (p (level + 1) x).toList) ++ close) ++ [']'])
  object : ∀ level members, ∃ gap sep colon close, Gap gap ∧ Gap sep ∧ Gap colon ∧ Gap close ∧
    (p level (object members)).toList = '{' :: (gap ++ (List.intercalate (',' :: sep)
      (members.map fun m => (stringText m.1).toList ++ ':' :: (colon ++
        (p (level + 1) m.2).toList)) ++ close) ++ ['}'])

theorem gap_nil : Gap [] := by
  rintro _ ⟨⟩

/-- Texts with commas between them are parts. -/
theorem parts_intercalate {α : Type} {part : α → List Char → Prop} {text : α → List Char}
    {sep close : List Char} (hSep : Gap sep) (hClose : Gap close) {x : α} {xs : List α}
    (h : ∀ y ∈ x :: xs, part y (text y)) {first : Bool} {lead : List Char}
    (hLead : Lead first lead) :
    Parts part first (x :: xs)
      (lead ++ (List.intercalate (',' :: sep) ((x :: xs).map text) ++ close)) := by
  induction xs generalizing x first lead with
  | nil =>
    rw [List.map_singleton, List.intercalate_singleton]
    exact .cons hLead (h x List.mem_cons_self) (.nil hClose)
  | cons y ys ih =>
    have hComma : Lead false (',' :: sep) := .comma gap_nil hSep
    have hMore := ih (fun z hz => h z (List.mem_cons_of_mem x hz)) hComma
    have hParts := Parts.cons hLead (h x List.mem_cons_self) hMore
    rw [List.map_cons, List.map_cons, List.intercalate_cons_cons]
    simpa using hParts

theorem Gap.append {cs ds : List Char} (h : Gap cs) (h' : Gap ds) : Gap (cs ++ ds) := by
  intro c hc
  rcases List.mem_append.mp hc with hc | hc
  · exact h c hc
  · exact h' c hc

theorem Parts.map {α β : Type} {g : α → β} {part : β → List Char → Prop} {first : Bool}
    {xs : List α} {body : List Char} (h : Parts (fun x cs => part (g x) cs) first xs body) :
    Parts part first (xs.map g) body := by
  induction h with
  | nil hGap => exact .nil hGap
  | cons hLead hPart _ ih => exact .cons hLead hPart ih

/-- The parts of an array or object, none of them included. -/
theorem parts_of_texts {α β : Type} {g : α → β} {part : β → List Char → Prop}
    {text : α → List Char} {gap sep close : List Char} (hGap : Gap gap) (hSep : Gap sep)
    (hClose : Gap close) {xs : List α} (h : ∀ x ∈ xs, part (g x) (text x)) :
    Parts part true (xs.map g) (gap ++ (List.intercalate (',' :: sep) (xs.map text) ++ close)) := by
  cases xs with
  | nil => exact .nil (hGap.append hClose)
  | cons x xs => exact (parts_intercalate hSep hClose h (.first hGap)).map

theorem mapRealsItems_eq (f : Float → Float) (items : List Json) :
    mapRealsItems f items = items.map (mapReals f) := by
  induction items with
  | nil => rfl
  | cons x xs ih => rw [mapRealsItems, ih, List.map_cons]

theorem mapRealsMembers_eq (f : Float → Float) (members : List (String × Json)) :
    mapRealsMembers f members = members.map fun m => (m.1, mapReals f m.2) := by
  induction members with
  | nil => rfl
  | cons m ms ih => rw [mapRealsMembers, ih, List.map_cons]

section Spelled

variable {p : (level : Nat) → Json → String} {f : Float → Float}

/-- The compact form of a scalar. -/
theorem scalar_spelled {j : Json} (hItems : ∀ items, j ≠ array items)
    (hMembers : ∀ members, j ≠ object members) (h : Converts f j) :
    Scalar (mapReals f j) (compact j).toList := by
  cases j with
  | null => exact .null
  | bool value => cases value <;> constructor
  | integer => exact absurd h (by simp [Converts])
  | real x =>
    have hNumber := numeral_of_reread h
    rw [compact]
    exact .number hNumber
  | string s =>
    rw [compact]
    exact .string (stringText_quoted s)
  | array items => exact absurd rfl (hItems items)
  | object members => exact absurd rfl (hMembers members)

mutual

/-- **What is written spells the value**, with its numbers as the reader converts them. -/
theorem Prints.spelled (hp : Prints p) :
    ∀ (level : Nat) (j : Json), Converts f j → Spelled (mapReals f j) (p level j).toList
  | level, .array items, h => by
    obtain ⟨gap, sep, close, hGap, hSep, hClose, hText⟩ := hp.array level items
    rw [hText, mapReals, mapRealsItems_eq]
    exact .array (parts_of_texts hGap hSep hClose (hp.items_spelled (level + 1) items h))
  | level, .object members, h => by
    obtain ⟨gap, sep, colon, close, hGap, hSep, hColon, hClose, hText⟩ := hp.object level members
    rw [hText, mapReals, mapRealsMembers_eq]
    refine .object (parts_of_texts hGap hSep hClose fun m hm => ?_)
    have hMember := Member.pair (stringText_quoted m.1) gap_nil hColon
      (hp.members_spelled (level + 1) members h m hm)
    rwa [List.nil_append] at hMember
  | level, .null, h | level, .bool _, h | level, .integer _, h | level, .real _, h
  | level, .string _, h => by
    rw [hp.scalar level _ (by rintro _ ⟨⟩) (by rintro _ ⟨⟩)]
    exact .scalar (scalar_spelled (by rintro _ ⟨⟩) (by rintro _ ⟨⟩) h)

theorem Prints.items_spelled (hp : Prints p) : ∀ (level : Nat) (items : List Json),
    ItemsConvert f items → ∀ x ∈ items, Spelled (mapReals f x) (p level x).toList
  | _, [], _ => by rintro _ ⟨⟩
  | level, x :: xs, h => by
    intro y hy
    rcases List.mem_cons.mp hy with hEq | hy
    · rw [hEq]
      exact hp.spelled level x h.1
    · exact hp.items_spelled level xs h.2 y hy

theorem Prints.members_spelled (hp : Prints p) : ∀ (level : Nat) (members : List (String × Json)),
    MembersConvert f members → ∀ m ∈ members, Spelled (mapReals f m.2) (p level m.2).toList
  | _, [], _ => by rintro _ ⟨⟩
  | level, (key, x) :: rest, h => by
    intro m hm
    rcases List.mem_cons.mp hm with hEq | hm
    · rw [hEq]
      exact hp.spelled level x h.1
    · exact hp.members_spelled level rest h.2 m hm

end

end Spelled

-- ----------------------------------------------------------------------------
-- The two forms
-- ----------------------------------------------------------------------------

theorem compactItems_eq (items : List Json) : compactItems items = items.map compact := by
  induction items with
  | nil => rfl
  | cons x xs ih => rw [compactItems, ih, List.map_cons]

theorem compactMembers_eq (members : List (String × Json)) :
    compactMembers members = members.map fun m => stringText m.1 ++ ":" ++ compact m.2 := by
  induction members with
  | nil => rfl
  | cons m ms ih => rw [compactMembers, ih, List.map_cons]

theorem prettyItems_eq (level : Nat) (items : List Json) :
    prettyItems level items = items.map (prettyAt level) := by
  induction items with
  | nil => rfl
  | cons x xs ih => rw [prettyItems, ih, List.map_cons]

theorem prettyMembers_eq (level : Nat) (members : List (String × Json)) :
    prettyMembers level members =
      members.map fun m => stringText m.1 ++ ": " ++ prettyAt level m.2 := by
  induction members with
  | nil => rfl
  | cons m ms ih => rw [prettyMembers, ih, List.map_cons]

theorem newline_gap (level : Nat) : Gap (newline level).toList := by
  rw [newline, String.toList_ofList]
  intro c hc
  rcases List.mem_cons.mp hc with rfl | hc
  · decide
  · rw [List.eq_of_mem_replicate hc]
    decide

theorem compact_prints : Prints fun _ => compact where
  scalar _ _ _ _ := rfl
  array _ items := by
    refine ⟨[], [], [], gap_nil, gap_nil, gap_nil, ?_⟩
    rw [compact, inline, compactItems_eq]
    simp [String.toList_intercalate, Function.comp_def]
  object _ members := by
    refine ⟨[], [], [], [], gap_nil, gap_nil, gap_nil, gap_nil, ?_⟩
    rw [compact, inline, compactMembers_eq]
    simp [String.toList_intercalate, Function.comp_def]

theorem pretty_prints : Prints prettyAt where
  scalar level j hItems hMembers := by
    cases j with
    | array items => exact absurd rfl (hItems items)
    | object members => exact absurd rfl (hMembers members)
    | bool value => cases value <;> rfl
    | null | integer | real | string => rfl
  array level items := by
    cases items with
    | nil => exact ⟨[], [], [], gap_nil, gap_nil, gap_nil, by simp [prettyAt, prettyItems, onLines]⟩
    | cons x xs =>
      refine ⟨_, _, _, newline_gap (level + 1), newline_gap (level + 1), newline_gap level, ?_⟩
      rw [prettyAt, onLines, prettyItems_eq]
      simp [String.toList_intercalate, Function.comp_def]
  object level members := by
    cases members with
    | nil =>
      refine ⟨[], [], [], [], gap_nil, gap_nil, gap_nil, gap_nil, ?_⟩
      simp [prettyAt, prettyMembers, onLines]
    | cons m ms =>
      refine ⟨_, _, [' '], _, newline_gap (level + 1), newline_gap (level + 1), ?_,
        newline_gap level, ?_⟩
      · intro c hc
        rw [List.mem_singleton.mp hc]
        decide
      · have hBraces : "\x7b".toList = ['{'] ∧ "\x7d".toList = ['}'] ∧ ",".toList = [','] ∧
            ": ".toList = [':', ' '] := by decide
        obtain ⟨hOpen, hClose, hComma, hColon⟩ := hBraces
        rw [prettyAt, onLines, prettyMembers_eq]
        simp only [List.map_cons, List.isEmpty_cons, Bool.false_eq_true, if_false,
          String.toList_append, String.toList_intercalate, List.map_map, Function.comp_def, hOpen,
          hClose, hComma, hColon, List.append_assoc, List.cons_append, List.nil_append]

/-- Both forms of a value spell it. -/
theorem written_spelled {f : Float → Float} {j : Json} (h : Converts f j) {text : String}
    (hText : text = compact j ∨ text = pretty j) : Spelled (mapReals f j) text.toList := by
  rcases hText with rfl | rfl
  · exact compact_prints.spelled 0 j h
  · exact pretty_prints.spelled 0 j h

/-- Both forms of a value nest as deep as the value. -/
theorem nesting_written {f : Float → Float} {j : Json} (h : Converts f j) {text : String}
    (hText : text = compact j ∨ text = pretty j) : nesting text = j.depth := by
  rw [(written_spelled h hText).nesting_eq, depth_mapReals]

end Zaban.Json
