import Zaban.Proofs.Json.Accepting
import Zaban.Proofs.Number.Numerals

/-!
# Written texts that are accepted

A written text is spelled as the reader reads it, if the reader converts all its
numbers. A number that it does not convert is too large for it, and then it
refuses the text (`reread?_of_read`). So a written text that is accepted has
numbers that are all converted, and what it spells is known (`Prints.tried`).

The text of a number has a point or an exponent (`realText_shape`), and nothing
that can follow it in a text belongs to it. So it is read to its end where it is
read at all (`Exhausts`).
-/

namespace Zaban.Json

-- ----------------------------------------------------------------------------
-- The text of a number
-- ----------------------------------------------------------------------------

/-- What is written behind the digits of a number: an exponent with a sign, or nothing. -/
inductive Scaling : List Char → Prop where
  | none : Scaling []
  | exponent {sign : Char} {ds : List Char} (hSign : sign = '+' ∨ sign = '-') (h : Digits ds) :
      Scaling ('e' :: sign :: ds)

/-- What is written behind the whole part of a number: a point and digits, or an exponent. -/
inductive BehindWhole : List Char → Prop where
  | point {ds es : List Char} (h : Digits ds) (hScaling : Scaling es) :
      BehindWhole ('.' :: (ds ++ es))
  | exponent {es : List Char} (hScaling : Scaling ('e' :: es)) : BehindWhole ('e' :: es)

/-- A number without its sign. -/
inductive Unsigned : List Char → Prop where
  | mk {whole rest : List Char} (hWhole : Digits whole) (hRest : BehindWhole rest) :
      Unsigned (whole ++ rest)

section Shape

theorem positionalText_shape (d : Decimal) : Unsigned (layout.positionalText d).toList := by
  have hDigits : Digits d.digits := digits_toDigits d.coefficient
  have hLength : 0 < d.digits.length := List.length_pos_iff.mpr hDigits.1
  have hScientific : d.scientific = d.exponent + d.digits.length - 1 := rfl
  simp only [Layout.positionalText]
  split_ifs with hSmall hFraction
  · -- zeros stand between the point and the digits
    have hFill : Digits (List.replicate (-d.scientific - 1).toNat '0' ++ d.digits) :=
      ⟨by simp [hDigits.1], List.forall_mem_append.mpr ⟨isDigit_replicate _, hDigits.2⟩⟩
    simpa using Unsigned.mk digits_zero (.point hFill .none)
  · have hWhole : Digits (d.digits.take (d.scientific + 1).toNat) := by
      refine ⟨?_, fun c hc => hDigits.2 c (List.mem_of_mem_take hc)⟩
      rw [← List.length_pos_iff, List.length_take]
      omega
    have hBehind : Digits (d.digits.drop (d.scientific + 1).toNat) := by
      refine ⟨?_, fun c hc => hDigits.2 c (List.mem_of_mem_drop hc)⟩
      rw [← List.length_pos_iff, List.length_drop]
      omega
    simpa using Unsigned.mk hWhole (.point hBehind .none)
  · have hWhole := hDigits.append (isDigit_replicate d.exponent.toNat)
    simpa [layout] using Unsigned.mk hWhole (.point digits_zero .none)

theorem scientificText_shape (d : Decimal) : Unsigned (Layout.scientificText d).toList := by
  have hDigits : Digits d.digits := digits_toDigits d.coefficient
  obtain ⟨es, hScaling, hText⟩ : ∃ es, Scaling ('e' :: es) ∧
      ((if d.scientific < 0 then "e-" else "e+") ++ toString d.scientific.natAbs).toList =
        'e' :: es := by
    have hPower := digits_toDigits d.scientific.natAbs
    split_ifs
    · exact ⟨_, .exponent (Or.inr rfl) hPower, by simp⟩
    · exact ⟨_, .exponent (Or.inl rfl) hPower, by simp⟩
  simp only [Layout.scientificText]
  rw [String.append_assoc, String.toList_append, hText]
  split
  · rename_i x y ys hSplit
    rw [hSplit] at hDigits
    have hFirst : Digits [x] := ⟨by simp, fun c hc => hDigits.2 c (by simp_all)⟩
    have hMore : Digits (y :: ys) := ⟨by simp, fun c hc => hDigits.2 c (by simp_all)⟩
    simpa using Unsigned.mk hFirst (.point hMore hScaling)
  · simpa using Unsigned.mk hDigits (.exponent hScaling)

/-- **The text of a finite number** has a whole part, and a point or an exponent. -/
theorem realText_shape {x : Float} (h : isFinite x = true) :
    ∃ cs, Unsigned cs ∧ ((realText x).toList = cs ∨ (realText x).toList = '-' :: cs) := by
  have hSigned : ∀ {negative : Bool} {text : String}, Unsigned text.toList →
      ∃ cs, Unsigned cs ∧ (((if negative then "-" else "") ++ text).toList = cs ∨
        ((if negative then "-" else "") ++ text).toList = '-' :: cs) := by
    intro negative text hText
    refine ⟨text.toList, hText, ?_⟩
    cases negative with
    | false => exact Or.inl (by simp)
    | true => exact Or.inr (by simp)
  obtain ⟨negative, m, q, hBinary⟩ := exists_finite h
  simp only [realText, Layout.write, hBinary]
  split
  · refine ⟨['0', '.', '0'], .mk digits_zero (.point digits_zero .none), ?_⟩
    cases negative with
    | false => exact Or.inl rfl
    | true => exact Or.inr rfl
  · refine hSigned ?_
    rw [Layout.decimalText]
    split
    · exact positionalText_shape _
    · exact scientificText_shape _

end Shape

-- ----------------------------------------------------------------------------
-- Reading the text of a number
-- ----------------------------------------------------------------------------

/-- The text is read to its end and no further, as a number that is no whole word, if it is read in
front of something that does not belong to it. -/
def Exhausts (read : List Char → Reading (Json × List Char)) (cs : List Char) : Prop :=
  ∀ ⦃rest : List Char⦄ ⦃j : Json⦄ ⦃rest' : List Char⦄, Closed rest →
    read (cs ++ rest) = .ok (j, rest') → rest' = rest ∧ ∃ y, j = .real y

section Exhausts

variable (negative : Bool) (significand : Nat) (e : Int)

theorem closed_head {cs : List Char} (h : Closed cs) : ∀ c ∈ cs.head?, c.isDigit = false :=
  fun c hc => (h c hc).1

theorem fromParts_real {j : Json} (h : fromParts negative significand e = .ok j) :
    ∃ y, j = .real y := by
  unfold fromParts at h
  split at h
  · exact ⟨_, (Except.ok.inj h).symm⟩
  · cases h

theorem readMagnitude_exhausts (down : Bool) {ds : List Char} (h : Digits ds) :
    Exhausts (readMagnitude negative significand e down) ds := by
  intro rest j rest' hClosed hRead
  obtain ⟨hTake, hDrop⟩ := span_of_head h.2 (closed_head hClosed)
  simp only [readMagnitude, hTake, hDrop] at hRead
  split at hRead
  · cases hRead
  split at hRead
  · split at hRead
    · cases hRead
    · obtain ⟨rfl, rfl⟩ := Prod.mk.inj (Except.ok.inj hRead)
      exact ⟨rfl, _, rfl⟩
  · obtain ⟨x, hParts, hRead⟩ := bind_eq_ok.mp hRead
    obtain ⟨rfl, rfl⟩ := Prod.mk.inj (pure_eq_ok.mp hRead)
    exact ⟨rfl, fromParts_real _ _ _ hParts⟩

theorem readScaled_exhausts {es : List Char} (h : Scaling es) :
    Exhausts (readScaled negative significand e) es := by
  intro rest j rest' hClosed hRead
  cases h with
  | none =>
    have hPlain : (fromParts negative significand e >>= fun x => pure (x, rest)) =
        .ok (j, rest') := by
      cases rest with
      | nil => exact hRead
      | cons c rest =>
        obtain ⟨-, -, he, hE⟩ := hClosed c rfl
        rwa [List.nil_append, readScaled_eq, if_neg (by simp [he, hE])] at hRead
    obtain ⟨x, hParts, hPure⟩ := bind_eq_ok.mp hPlain
    obtain ⟨rfl, rfl⟩ := Prod.mk.inj (pure_eq_ok.mp hPure)
    exact ⟨rfl, fromParts_real _ _ _ hParts⟩
  | exponent hSign hDigits =>
    rcases hSign with rfl | rfl
    · exact readMagnitude_exhausts negative significand e false hDigits hClosed hRead
    · exact readMagnitude_exhausts negative significand e true hDigits hClosed hRead

theorem Scaling.head {es : List Char} (h : Scaling es) {rest : List Char} (hClosed : Closed rest) :
    ∀ c ∈ (es ++ rest).head?, c.isDigit = false := by
  cases h with
  | none => exact fun c hc => (hClosed c hc).1
  | exponent =>
    intro c hc
    obtain rfl : 'e' = c := by simpa using hc
    decide

theorem readFraction_exhausts {ds es : List Char} (h : Digits ds) (hScaling : Scaling es) :
    Exhausts (readFraction negative significand e) (ds ++ es) := by
  intro rest j rest' hClosed hRead
  rw [List.append_assoc] at hRead
  obtain ⟨hTake, hDrop⟩ := span_of_head h.2 (hScaling.head hClosed)
  simp only [readFraction, hTake, hDrop] at hRead
  split at hRead
  · cases hRead
  · exact readScaled_exhausts negative _ _ hScaling hClosed hRead

theorem BehindWhole.head {behind : List Char} (h : BehindWhole behind) (rest : List Char) :
    ∀ c ∈ (behind ++ rest).head?, c.isDigit = false := by
  cases h with
  | point => simp
  | exponent => simp

theorem readNumber_exhausts {cs : List Char} (h : Unsigned cs) :
    Exhausts (readNumber negative) cs := by
  intro rest j rest' hClosed hRead
  cases h with
  | @mk whole behind hWhole hBehind =>
    obtain ⟨hTake, hDrop⟩ := span_of_head hWhole.2 (hBehind.head rest)
    simp only [readNumber_eq, List.append_assoc, hTake, hDrop] at hRead
    split at hRead
    · cases hRead
    split at hRead
    · cases hRead
    cases hBehind with
    | point hDigits hScaling =>
      exact readFraction_exhausts negative _ _ hDigits hScaling hClosed hRead
    | exponent hScaling =>
      rw [List.cons_append, readBehindWhole_cons] at hRead
      simp only [Char.reduceEq, if_false, true_or, if_true] at hRead
      exact readScaled_exhausts negative _ _ hScaling hClosed hRead

/-- A number that is read in front of something is read alike on its own. -/
theorem readNumber_alone {cs : List Char} (h : Unsigned cs) {rest : List Char}
    (hClosed : Closed rest) {r : Json × List Char}
    (hRead : readNumber negative (cs ++ rest) = .ok r) :
    ∃ y, readNumber negative cs = .ok (.real y, []) := by
  obtain ⟨j, rest'⟩ := r
  obtain ⟨rfl, y, rfl⟩ := readNumber_exhausts negative h hClosed hRead
  obtain ⟨⟨taken, hText, hTaken⟩, -⟩ := readNumber_consumes hRead
  rw [List.append_cancel_right hText]
  exact ⟨y, hTaken⟩

end Exhausts

/-- A scalar is read where a value is. -/
theorem readScalar_of_readValue {c : Char}
    (hStart : c ∉ [' ', '\n', '\t', '\r', '[', ']', '{', '}']) {fuel limit : Nat}
    {gap cs : List Char} (hGap : Gap gap) {r : Json × List Char}
    (h : readValue fuel limit (gap ++ c :: cs) = .ok r) :
    ∃ fuel', readScalar fuel' c cs = .ok r := by
  simp only [List.mem_cons, List.not_mem_nil, or_false, not_or] at hStart
  obtain ⟨hSpace, hLine, hTab, hReturn, hArray, -, hObject, -⟩ := hStart
  have hNoGap : isGap c = false := by simp [isGap, hSpace, hLine, hTab, hReturn]
  cases fuel with
  | zero => cases h
  | succ fuel =>
    rw [readValue, skipGap_append hGap, skipGap_cons hNoGap] at h
    simp only [hArray, hObject, if_false] at h
    exact ⟨fuel, h⟩

theorem Unsigned.head {cs : List Char} (h : Unsigned cs) :
    ∃ c inner, cs = c :: inner ∧ c.isDigit = true := by
  cases h with
  | @mk whole behind hWhole _ =>
    cases whole with
    | nil => exact absurd rfl hWhole.1
    | cons c whole => exact ⟨c, whole ++ behind, rfl, hWhole.2 c List.mem_cons_self⟩

theorem digit_begins {c : Char} (h : c.isDigit = true) :
    c ∉ [' ', '\n', '\t', '\r', '[', ']', '{', '}'] := by
  have hAll : ∀ d ∈ [' ', '\n', '\t', '\r', '[', ']', '{', '}'], d.isDigit = false := by simp
  intro hMem
  rw [hAll c hMem] at h
  cases h

/-- **A written number that is read somewhere in a text is converted.** -/
theorem reread?_of_read {x : Float} (hx : isFinite x = true) {fuel limit : Nat}
    {gap rest : List Char} (hGap : Gap gap) (hClosed : Closed rest) {r : Json × List Char}
    (h : readValue fuel limit (gap ++ ((realText x).toList ++ rest)) = .ok r) :
    reread? x = some (reread x) := by
  have hSome : ∀ {c : Char} {cs : List Char} {y : Float}, (realText x).toList = c :: cs →
      readScalar 0 c cs = .ok (.real y, []) → reread? x = some (reread x) := by
    intro c cs y hText hRead
    have hValue : reread? x = some y := by
      simp only [reread?, hText, hRead]
    rw [reread, hValue]
    rfl
  obtain ⟨cs, hShape, hText⟩ := realText_shape hx
  rcases hText with hText | hText
  · rw [hText] at h
    obtain ⟨c, inner, rfl, hDigit⟩ := hShape.head
    obtain ⟨fuel', hScalar⟩ := readScalar_of_readValue (digit_begins hDigit) hGap h
    rw [readScalar_digit hDigit] at hScalar
    obtain ⟨y, hRead⟩ := readNumber_alone false hShape hClosed hScalar
    refine hSome (y := y) hText ?_
    rw [readScalar_digit hDigit]
    exact hRead
  · rw [hText] at h
    obtain ⟨fuel', hScalar⟩ := readScalar_of_readValue (by decide) hGap h
    obtain ⟨y, hRead⟩ := readNumber_alone true hShape hClosed hScalar
    exact hSome hText hRead

-- ----------------------------------------------------------------------------
-- Values
-- ----------------------------------------------------------------------------

/-- There are no whole words in the value, and its numbers are finite. -/
inductive Fractional : Json → Prop where
  | null : Fractional null
  | bool (b : Bool) : Fractional (bool b)
  | string (s : String) : Fractional (string s)
  | real {x : Float} (h : isFinite x = true) : Fractional (real x)
  | array {items : List Json} (h : ∀ x ∈ items, Fractional x) : Fractional (array items)
  | object {members : List (String × Json)} (h : ∀ m ∈ members, Fractional m.2) :
      Fractional (object members)

/-- A text of the value: if it is read as anything, the numbers of the value are converted, and if
they are, it is read as the value. -/
structure Tried (j : Json) (cs : List Char) : Prop where
  begun    : Begun cs
  converts : ∀ {fuel limit gap rest r}, Gap gap → Closed rest → 2 * cs.length ≤ fuel →
    readValue fuel limit (gap ++ (cs ++ rest)) = .ok r → Converts reread j
  spelled  : Converts reread j → Spelled (mapReals reread j) cs

section Tried

variable {fuel limit : Nat} {first : Bool} {body rest : List Char}

/-- A value that is read is followed by what stands behind its text. -/
theorem Tried.read {j : Json} {cs gap : List Char} (h : Tried j cs) (hGap : Gap gap)
    (hClosed : Closed rest) (hFuel : 2 * cs.length ≤ fuel) {r : Json × List Char}
    (hRead : readValue fuel limit (gap ++ (cs ++ rest)) = .ok r) :
    Converts reread j ∧ r.2 = rest := by
  have hConverts := h.converts hGap hClosed hFuel hRead
  rw [(h.spelled hConverts).reads.read fuel limit gap rest hGap hClosed hFuel, within] at hRead
  split at hRead
  · obtain rfl := Except.ok.inj hRead
    exact ⟨hConverts, rfl⟩
  · cases hRead

theorem readItems_converts {items : List Json} (h : Parts Tried first items body)
    (hFuel : 2 * body.length + 1 ≤ fuel) {r : List Json × List Char}
    (hRead : readItems fuel limit first (body ++ ']' :: rest) = .ok r) :
    ItemsConvert reread items := by
  induction h generalizing fuel r with
  | nil => trivial
  | @cons first lead cs more x xs hLead hPart hMore ih =>
    simp only [List.length_append] at hFuel
    obtain ⟨c, inner, rfl, hGap, hStop, -⟩ := hPart.begun
    rw [List.length_cons] at hFuel
    obtain ⟨fuel, rfl⟩ : ∃ f, fuel = f + 1 := ⟨fuel - 1, by omega⟩
    have hText : lead ++ (c :: inner ++ more) ++ ']' :: rest =
        lead ++ c :: (inner ++ (more ++ ']' :: rest)) := by simp
    rw [hText, readItems, readSeparator_lead hLead (by decide) hGap hStop] at hRead
    obtain ⟨_, ⟨⟩, hRead⟩ := bind_eq_ok.mp hRead
    obtain ⟨⟨y, cs'⟩, hValue, hTail⟩ := bind_eq_ok.mp hRead
    obtain ⟨hConverts, hBehind⟩ := hPart.read gap_nil (hMore.closed (Or.inl rfl) rest)
      (by rw [List.length_cons]; omega) hValue
    obtain ⟨r', hItems, -⟩ := bind_eq_ok.mp hTail
    rw [show cs' = _ from hBehind] at hItems
    exact ⟨hConverts, ih (by omega) hItems⟩

theorem readMembers_converts {members : List (String × Json)}
    (h : Parts (Member Tried) first members body) (hFuel : 2 * body.length + 1 ≤ fuel)
    {r : List (String × Json) × List Char}
    (hRead : readMembers fuel limit first (body ++ '}' :: rest) = .ok r) :
    MembersConvert reread members := by
  induction h generalizing fuel r with
  | nil => trivial
  | @cons first lead cs more m xs hLead hPart hMore ih =>
    obtain ⟨key, x⟩ := m
    obtain ⟨inner, colon, value, rfl, hTried, hKey, gap, hGap, hColon⟩ := hPart.reads_key
    simp only [List.length_append, List.length_cons] at hFuel
    obtain ⟨fuel, rfl⟩ : ∃ f, fuel = f + 1 := ⟨fuel - 1, by omega⟩
    have hText : lead ++ ('"' :: (inner ++ (colon ++ value)) ++ more) ++ '}' :: rest =
        lead ++ '"' :: (inner ++ (colon ++ (value ++ (more ++ '}' :: rest)))) := by simp
    rw [hText, readMembers, readSeparator_lead hLead (by decide) (by decide) (by decide)] at hRead
    obtain ⟨_, ⟨⟩, hRead⟩ := bind_eq_ok.mp hRead
    obtain ⟨k, hk, hTail⟩ := bind_eq_ok.mp hRead
    obtain rfl := Except.ok.inj ((hKey fuel _ (by omega)).symm.trans hk)
    obtain ⟨cs', hcs, hTail⟩ := bind_eq_ok.mp hTail
    obtain rfl := Except.ok.inj ((hColon _).symm.trans hcs)
    obtain ⟨⟨y, cs'⟩, hValue, hTail⟩ := bind_eq_ok.mp hTail
    obtain ⟨hConverts, hBehind⟩ := hTried.read hGap (hMore.closed (Or.inr rfl) rest)
      (by omega) hValue
    obtain ⟨r', hMembers, -⟩ := bind_eq_ok.mp hTail
    rw [show cs' = _ from hBehind] at hMembers
    exact ⟨hConverts, ih (by omega) hMembers⟩

theorem tried_array {items : List Json} (h : Parts Tried true items body)
    (hSpelled : ItemsConvert reread items →
      Spelled (mapReals reread (.array items)) ('[' :: (body ++ [']']))) :
    Tried (.array items) ('[' :: (body ++ [']'])) := by
  refine ⟨begun_of_mem (by decide) _, ?_, hSpelled⟩
  intro fuel limit gap rest r hGap hClosed hFuel hRead
  simp only [List.length_cons, List.length_append] at hFuel
  obtain ⟨fuel, rfl⟩ : ∃ f, fuel = f + 1 := ⟨fuel - 1, by omega⟩
  have hText : '[' :: (body ++ [']']) ++ rest = '[' :: (body ++ ']' :: rest) := by simp
  rw [hText, readValue, skipGap_append hGap, skipGap_cons (by decide)] at hRead
  simp only [if_true] at hRead
  cases limit with
  | zero => cases hRead
  | succ limit =>
    obtain ⟨r', hItems, -⟩ := bind_eq_ok.mp hRead
    exact readItems_converts h (by omega) hItems

theorem tried_object {members : List (String × Json)} (h : Parts (Member Tried) true members body)
    (hSpelled : MembersConvert reread members →
      Spelled (mapReals reread (.object members)) ('{' :: (body ++ ['}']))) :
    Tried (.object members) ('{' :: (body ++ ['}'])) := by
  refine ⟨begun_of_mem (by decide) _, ?_, hSpelled⟩
  intro fuel limit gap rest r hGap hClosed hFuel hRead
  simp only [List.length_cons, List.length_append] at hFuel
  obtain ⟨fuel, rfl⟩ : ∃ f, fuel = f + 1 := ⟨fuel - 1, by omega⟩
  have hText : '{' :: (body ++ ['}']) ++ rest = '{' :: (body ++ '}' :: rest) := by simp
  rw [hText, readValue, skipGap_append hGap, skipGap_cons (by decide)] at hRead
  simp only [Char.reduceEq, if_false, if_true] at hRead
  cases limit with
  | zero => cases hRead
  | succ limit =>
    obtain ⟨r', hMembers, -⟩ := bind_eq_ok.mp hRead
    exact readMembers_converts h (by omega) hMembers

theorem tried_real {x : Float} (hx : isFinite x = true) : Tried (.real x) (realText x).toList := by
  refine ⟨?_, ?_, ?_⟩
  · obtain ⟨cs, hShape, hText | hText⟩ := realText_shape hx
    · obtain ⟨c, inner, rfl, hDigit⟩ := hShape.head
      have hStart := digit_begins hDigit
      rw [hText]
      exact begun_of_mem (by grind) _
    · rw [hText]
      exact begun_of_mem (by decide) _
  · intro fuel limit gap rest r hGap hClosed _ hRead
    exact reread?_of_read hx hGap hClosed hRead
  · intro hConverts
    exact .scalar (.number (numeral_of_reread hConverts))

end Tried

section Prints

variable {p : (level : Nat) → Json → String}

theorem Prints.tried_scalar (hp : Prints p) (level : Nat) {j : Json}
    (hItems : ∀ items, j ≠ .array items) (hMembers : ∀ members, j ≠ .object members)
    (h : Converts reread j) : Tried j (p level j).toList := by
  rw [hp.scalar level j hItems hMembers]
  have hScalar := scalar_spelled hItems hMembers h
  exact ⟨hScalar.reads_value.begun, fun _ _ _ _ => h, fun _ => .scalar hScalar⟩

/-- **Every text that a printer writes is tried.** -/
theorem Prints.tried (hp : Prints p) {j : Json} (h : Fractional j) (level : Nat) :
    Tried j (p level j).toList := by
  induction h generalizing level with
  | null => exact hp.tried_scalar level (by rintro _ ⟨⟩) (by rintro _ ⟨⟩) trivial
  | bool b => exact hp.tried_scalar level (by rintro _ ⟨⟩) (by rintro _ ⟨⟩) trivial
  | string s => exact hp.tried_scalar level (by rintro _ ⟨⟩) (by rintro _ ⟨⟩) trivial
  | real hx =>
    rw [hp.scalar level _ (by rintro _ ⟨⟩) (by rintro _ ⟨⟩)]
    exact tried_real hx
  | @array items _ ih =>
    obtain ⟨gap, sep, close, hGap, hSep, hClose, hText⟩ := hp.array level items
    have hParts : Parts Tried true (items.map id) _ :=
      parts_of_texts hGap hSep hClose fun x hx => ih x hx (level + 1)
    rw [List.map_id] at hParts
    have hSpelled := hp.spelled (f := reread) level (.array items)
    rw [hText] at hSpelled ⊢
    exact tried_array hParts hSpelled
  | @object members _ ih =>
    obtain ⟨gap, sep, colon, close, hGap, hSep, hColon, hClose, hText⟩ := hp.object level members
    have hMembers : ∀ m ∈ members, Member Tried m
        ((stringText m.1).toList ++ ':' :: (colon ++ (p (level + 1) m.2).toList)) := by
      intro m hm
      have hMember := Member.pair (stringText_quoted m.1) gap_nil hColon (ih m hm (level + 1))
      rwa [List.nil_append] at hMember
    have hParts : Parts (Member Tried) true (members.map id) _ :=
      parts_of_texts hGap hSep hClose hMembers
    rw [List.map_id] at hParts
    have hSpelled := hp.spelled (f := reread) level (.object members)
    rw [hText] at hSpelled ⊢
    exact tried_object hParts hSpelled

end Prints

end Zaban.Json
