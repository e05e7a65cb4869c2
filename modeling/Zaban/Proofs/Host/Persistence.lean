import Zaban.Host.File
import Zaban.Proofs.Syntax.Stored

/-!
# Running a stored program

A program that is stored and read back is meant to be the program again, and to
run like its source. This holds of a program under two conditions
(`stored_runs_alike`): the text of its tree nests no deeper than the reader
goes, and its numbers are finite and survive their conversion. The rest is the
same for every tree: what was written to a file is read from it
(`Directory.read_write`), and a run knows nothing of a file but the tree in it
(`runFile_alike`).

Neither condition is one of the language. `parse` reads programs of any depth
and numerals of any length, so there are programs that are not read back, and
programs that are read back as others (`stored_as_another`).
-/

namespace Zaban

-- ----------------------------------------------------------------------------
-- Equal trees
-- ----------------------------------------------------------------------------

namespace Node

mutual

/-- A tree with its numbers changed is the same tree exactly if the numbers are the same. -/
theorem sameAs_mapNumbers (f : Float → Float) : ∀ n : Node,
    (n.mapNumbers f).sameAs n = n.numbers.all fun x => f x == x
  | .program body => by rw [mapNumbers, sameAs, numbers, allSame_mapAll f body]
  | .assignment target value => by
    rw [mapNumbers, sameAs, numbers, List.all_append, sameAs_mapNumbers f target,
      sameAs_mapNumbers f value]
  | .binary op left right => by
    rw [mapNumbers, sameAs, numbers, List.all_append, sameAs_mapNumbers f left,
      sameAs_mapNumbers f right, beq_self_eq_true, Bool.true_and]
  | .condition test yes no => by
    rw [mapNumbers, sameAs, numbers, List.all_append, List.all_append, sameAs_mapNumbers f test,
      sameAs_mapNumbers f yes, optionSame_mapOption f no, Bool.and_assoc]
  | .lambda params body => by
    rw [mapNumbers, sameAs, numbers, sameAs_mapNumbers f body, beq_self_eq_true, Bool.true_and]
  | .call callee args => by
    rw [mapNumbers, sameAs, numbers, List.all_append, sameAs_mapNumbers f callee,
      allSame_mapAll f args]
  | .number value => by simp [mapNumbers, sameAs, numbers]
  | .var name => by simp [mapNumbers, sameAs, numbers]
  | .string value => by simp [mapNumbers, sameAs, numbers]
  | .boolean value => by simp [mapNumbers, sameAs, numbers]

theorem allSame_mapAll (f : Float → Float) : ∀ xs : List Node,
    allSame (mapAll f xs) xs = (allNumbers xs).all fun x => f x == x
  | [] => rfl
  | x :: xs => by
    rw [mapAll, allSame, allNumbers, List.all_append, sameAs_mapNumbers f x, allSame_mapAll f xs]

theorem optionSame_mapOption (f : Float → Float) : ∀ no : Option Node,
    optionSame (mapOption f no) no = (optionNumbers no).all fun x => f x == x
  | none => rfl
  | some x => by rw [mapOption, optionSame, optionNumbers, sameAs_mapNumbers f x]

end

end Node

-- ----------------------------------------------------------------------------
-- Writing a file and reading it
-- ----------------------------------------------------------------------------

namespace Directory

variable {d d' : Directory} {p q : Place} {e : Entry}

theorem lookup_put_self : (d.put p e).entries.lookup p = some e := by
  have hFree : (d.entries.filter (·.1 != p)).lookup p = none := by
    rw [List.lookup_eq_none_iff]
    intro m hm
    have hOther : m.1 ≠ p := bne_iff_ne.mp (List.mem_filter.mp hm).2
    exact bne_iff_ne.mpr hOther.symm
  rw [put, List.lookup_append, hFree, List.lookup_cons_self]
  rfl

theorem lookup_put_of_ne (h : q ≠ p) : (d.put p e).entries.lookup q = d.entries.lookup q := by
  have hNone : [(p, e)].lookup q = none := by
    rw [List.lookup_cons, beq_false_of_ne h]
    rfl
  rw [put, List.lookup_append, hNone, Option.or_none]
  induction d.entries with
  | nil => rfl
  | cons m ms ih =>
    by_cases hm : m.1 = p
    · rw [List.filter_cons_of_neg (by simp [hm]), ih, List.lookup_cons, hm, beq_false_of_ne h]
    · rw [List.filter_cons_of_pos (by simp [hm]), List.lookup_cons, List.lookup_cons, ih]

theorem any_holds_put (h : (d.entries.any fun m => q.holds m.1) = true) :
    ((d.put p e).entries.any fun m => q.holds m.1) = true := by
  rw [List.any_eq_true] at h ⊢
  obtain ⟨m, hm, hHolds⟩ := h
  by_cases hPlace : m.1 = p
  · refine ⟨(p, e), List.mem_append_right _ (List.mem_singleton.mpr rfl), ?_⟩
    rw [← hPlace]
    exact hHolds
  · exact ⟨m, List.mem_append_left _ (List.mem_filter.mpr ⟨hm, bne_iff_ne.mpr hPlace⟩), hHolds⟩

theorem enter_eq_ok : d.enter q = .ok () ↔ d.entry? q = some .directory := by
  unfold enter
  split <;> simp_all

theorem directory_at_iff : d.entry? q = some .directory ↔
    q.names.isEmpty = true ∨ d.entries.lookup q = some .directory ∨
      d.entries.lookup q = none ∧ (d.entries.any fun m => q.holds m.1) = true := by
  unfold entry?
  by_cases hTop : q.names.isEmpty = true
  · simp [hTop]
  · cases d.entries.lookup q <;> simp [hTop]

/-- A directory stays one when something is put where no directory is. -/
theorem enter_put (hPlace : d.entry? p ≠ some .directory) (h : d.enter q = .ok ()) :
    (d.put p e).enter q = .ok () := by
  rw [enter_eq_ok] at h ⊢
  have hOther : q ≠ p := by
    rintro rfl
    exact hPlace h
  rw [directory_at_iff] at h ⊢
  rw [lookup_put_of_ne hOther]
  rcases h with hNone | hListed | ⟨hFree, hBelow⟩
  · exact Or.inl hNone
  · exact Or.inr (Or.inl hListed)
  · exact Or.inr (Or.inr ⟨hFree, any_holds_put hBelow⟩)

/-- A path leads to where it led when something is put where no directory is. -/
theorem follow_put (hPlace : d.entry? p ≠ some .directory) {steps : List String} {r : Place}
    (h : d.follow q steps = .ok r) : (d.put p e).follow q steps = .ok r := by
  induction steps generalizing q with
  | nil => exact h
  | cons step steps ih =>
    rw [follow] at h ⊢
    cases hEnter : d.enter q with
    | error fault =>
      rw [hEnter] at h
      cases h
    | ok =>
      rw [hEnter] at h
      rw [enter_put hPlace hEnter]
      by_cases hLong : maxName < step.utf8ByteSize
      · simp [hLong, bind, Except.bind, throw, throwThe, MonadExceptOf.throw] at h
      · simp only [hLong, if_false] at h ⊢
        exact ih h

theorem locate_put (hPlace : d.entry? p ≠ some .directory) {path : String} {r : Place}
    (h : d.locate path = .ok r) : (d.put p e).locate path = .ok r := by
  unfold locate at h ⊢
  split_ifs at h ⊢
  exact follow_put hPlace h

/-- Where a file is written there is no directory. -/
theorem exists_put_of_write {path : String} {bytes : Array UInt8}
    (h : d.write path bytes = .ok d') : ∃ p, d.locate path = .ok p ∧
      d.entry? p ≠ some .directory ∧ d' = d.put p (.file bytes) := by
  rw [write] at h
  cases hLocate : d.locate path with
  | error fault =>
    rw [hLocate] at h
    cases h
  | ok p =>
    rw [hLocate] at h
    simp only [bind, Except.bind] at h
    split at h
    · cases h
    · rename_i hPlace
      exact ⟨p, rfl, hPlace, (Except.ok.inj h).symm⟩

/-- A file that was written is read as it was written. -/
theorem read_write {path : String} {bytes : Array UInt8} (h : d.write path bytes = .ok d') :
    d'.read path = .ok bytes := by
  obtain ⟨p, hLocate, hPlace, rfl⟩ := exists_put_of_write h
  have hNamed : ¬ p.names.isEmpty = true := fun hTop => hPlace (directory_at_iff.mpr (.inl hTop))
  have hEntry : Directory.entry? (d.put p (.file bytes)) p = some (.file bytes) := by
    unfold entry?
    rw [if_neg hNamed, lookup_put_self]
  rw [read, locate_put hPlace hLocate]
  simp only [bind, Except.bind, hEntry]
  rfl

end Directory

-- ----------------------------------------------------------------------------
-- Running a file
-- ----------------------------------------------------------------------------

theorem Utf8.decode?_toUTF8 (text : String) : Utf8.decode? text.toUTF8.data = some text :=
  dif_pos text.isValidUTF8

section Files

variable {o o' : FileOptions} {d d' e e' : Directory} {path path' text : String} {p : Node}

theorem FileOptions.load_source (hTree : o.fromTree = false)
    (hRead : d.read path = .ok text.toUTF8.data) (hParse : parse text = .ok p) :
    o.load d path = .ok p := by
  rw [FileOptions.load, hRead]
  simp only [Except.mapError, bind, Except.bind, Utf8.decode?_toUTF8, hTree, hParse]
  rfl

theorem FileOptions.load_tree (hTree : o.fromTree = true)
    (hRead : d.read path = .ok text.toUTF8.data) (hStored : Node.ofStored text = .ok p) :
    o.load d path = .ok p := by
  rw [FileOptions.load, hRead]
  simp only [Except.mapError, bind, Except.bind, Utf8.decode?_toUTF8, hTree, hStored]
  rfl

theorem FileOptions.writeTo_tree (hWrite : o.writeTree = true)
    (hWritten : d.write (Path.withExtension path treeExtension) p.storedText.toUTF8.data = .ok e) :
    o.writeTo path p d = .ok e := by
  rw [FileOptions.writeTo, if_pos hWrite]
  simp only [hWritten]
  rfl

/-- Files from which the same tree is loaded run alike, whatever is written besides. -/
theorem runFile_alike (hLoad : o.load d path = .ok p) (hLoad' : o'.load d' path' = .ok p)
    (hWrite : o.writeTo path p d = .ok e) (hWrite' : o'.writeTo path' p d' = .ok e')
    (hExtension : o.checkExtension path = .ok ()) (hExtension' : o'.checkExtension path' = .ok ())
    (hPrint : o'.printTree = o.printTree) (hConfig : o'.config = o.config) (w : World) :
    (runFile o' d' path' w).result = (runFile o d path w).result ∧
      (runFile o' d' path' w).world = (runFile o d path w).world := by
  have hPrinted : o'.printTo p w.sink = o.printTo p w.sink := by
    rw [FileOptions.printTo, FileOptions.printTo, hPrint]
  unfold runFile
  simp only [hExtension, hExtension', hLoad, hLoad', hPrinted]
  rcases o.printTo p w.sink with ⟨_ | ⟨⟩, sink⟩
  · exact ⟨rfl, rfl⟩
  · simp only [hWrite, hWrite', hConfig, and_self]

end Files

/--
**When a stored program stands for its source.** Of a source text and its tree,
where the numbers of the tree are converted to some number at all: the stored
tree is read as an equal tree exactly if its text does not nest too deep and
its numbers are finite and converted to equal ones. If the numbers are left as
they are, the stored tree is read as the tree. Then running the source file and
writing the tree next to it, and running what was written as a tree, end alike,
with the same value or error, the same output and the same frames.
-/
theorem stored_runs_alike {source : String} {p : Node} (hParse : parse source = .ok p)
    (hConverted : p.Converted) :
    ((∃ q, Node.ofStored p.storedText = .ok q ∧ q.sameAs p = true) ↔
      Json.nesting p.storedText ≤ Json.nestingLimit ∧
        ∀ x ∈ p.numbers, isFinite x = true ∧ (Json.reread x == x) = true) ∧
    (Json.nesting p.storedText ≤ Json.nestingLimit →
      (∀ x ∈ p.numbers, isFinite x = true ∧ Json.reread x = x) →
      Node.ofStored p.storedText = .ok p ∧
      ∀ (o : FileOptions) (d d' : Directory) (path treePath : String) (w : World),
        Path.extension? path = some sourceExtension → d.read path = .ok source.toUTF8.data →
        Path.withExtension path treeExtension = treePath →
        Path.extension? treePath = some treeExtension →
        d.write treePath p.storedText.toUTF8.data = .ok d' →
        let ofSource := runFile { o with fromTree := false, writeTree := true } d path w
        let ofTree := runFile { o with fromTree := true, writeTree := false } d' treePath w
        ofTree.result = ofSource.result ∧ ofTree.world = ofSource.world) := by
  have hRead := fun q => Node.ofStored_eq_ok_iff (m := q) hConverted (Or.inr rfl)
  refine ⟨⟨?_, ?_⟩, ?_⟩
  · rintro ⟨q, hStored, hSame⟩
    obtain ⟨hDeep, hFinite, rfl⟩ := (hRead q).mp hStored
    rw [Node.sameAs_mapNumbers, List.all_eq_true] at hSame
    exact ⟨hDeep, fun x hx => ⟨hFinite x hx, hSame x hx⟩⟩
  · rintro ⟨hDeep, hNumbers⟩
    refine ⟨_, (hRead _).mpr ⟨hDeep, fun x hx => (hNumbers x hx).1, rfl⟩, ?_⟩
    rw [Node.sameAs_mapNumbers, List.all_eq_true]
    exact fun x hx => (hNumbers x hx).2
  · intro hDeep hNumbers
    have hStored : Node.ofStored p.storedText = .ok p := by
      refine (hRead p).mpr ⟨hDeep, fun x hx => (hNumbers x hx).1, ?_⟩
      exact p.mapNumbers_eq_self fun x hx => (hNumbers x hx).2
    refine ⟨hStored, ?_⟩
    intro o d d' path treePath w hSource hSourceRead hTarget hTree hWritten
    have hLoad : FileOptions.load { o with fromTree := false, writeTree := true } d path =
        .ok p := FileOptions.load_source rfl hSourceRead hParse
    have hLoad' : FileOptions.load { o with fromTree := true, writeTree := false } d' treePath =
        .ok p := FileOptions.load_tree rfl (Directory.read_write hWritten) hStored
    have hWrite : FileOptions.writeTo { o with fromTree := false, writeTree := true } path p d =
        .ok d' := FileOptions.writeTo_tree rfl (by rw [hTarget]; exact hWritten)
    have hWrite' : FileOptions.writeTo { o with fromTree := true, writeTree := false } treePath p
        d' = .ok d' := rfl
    refine runFile_alike hLoad hLoad' hWrite hWrite' ?_ ?_ rfl rfl w
    · simp [FileOptions.checkExtension, hSource]
    · simp [FileOptions.checkExtension, hTree]

/-- A parsed program with a property that can be computed. -/
theorem exists_parse (text : String) (check : Node → Bool)
    (h : (parse text).toOption.any check = true) : ∃ p, parse text = .ok p ∧ check p = true := by
  cases hParse : parse text with
  | error e =>
    rw [hParse] at h
    cases h
  | ok p =>
    rw [hParse] at h
    exact ⟨p, rfl, h⟩

/-- A source file on its own. -/
def sumFile : Directory :=
  .ofEntries [("sum.k", .file "1 + 0.5".toUTF8.data)]

/-- A sum of two numbers that are converted to themselves, in the file `sum.k`. -/
theorem stored_runs_alike_sum : ∃ p, parse "1 + 0.5" = .ok p ∧
    Node.ofStored p.storedText = .ok p ∧
    ∃ d', sumFile.write "sum.ast" p.storedText.toUTF8.data = .ok d' ∧
      ∀ (o : FileOptions) (w : World),
        (runFile { o with fromTree := true, writeTree := false } d' "sum.ast" w).result =
          (runFile { o with fromTree := false, writeTree := true } sumFile "sum.k" w).result := by
  obtain ⟨p, hParse, hCheck⟩ := exists_parse "1 + 0.5"
    (fun p => p.numbers = [1, 0.5] ∧ p.toJson.depth ≤ Json.nestingLimit) (by decide +kernel)
  obtain ⟨hNumbers, hDepth⟩ := of_decide_eq_true hCheck
  have hSame : ∀ x ∈ p.numbers, isFinite x = true ∧ Json.reread? x = some x := by
    rw [hNumbers]
    decide +kernel
  have hConverted : p.Converted := by
    intro x hx _
    rw [(hSame x hx).2]
    rfl
  have hNesting : Json.nesting p.storedText ≤ Json.nestingLimit := by
    rw [hConverted.nesting_storedText]
    exact hDepth
  have hKept : ∀ x ∈ p.numbers, isFinite x = true ∧ Json.reread x = x := by
    intro x hx
    rw [Json.reread, (hSame x hx).2]
    exact ⟨(hSame x hx).1, rfl⟩
  obtain ⟨hStored, hRuns⟩ := (stored_runs_alike hParse hConverted).2 hNesting hKept
  refine ⟨p, hParse, hStored, _, rfl, fun o w => ?_⟩
  exact (hRuns o sumFile _ "sum.k" "sum.ast" w (by decide) rfl (by decide) (by decide) rfl).1

/-- A numeral whose number is stored and read back as the number next to it. -/
theorem stored_as_another : ∃ p q, parse "2124042034583132176384" = .ok p ∧
    Node.ofStored p.storedText = .ok q ∧ q.sameAs p = false := by
  obtain ⟨p, hParse, hCheck⟩ := exists_parse "2124042034583132176384"
    (fun p => p.numbers = [2124042034583132176384] ∧ p.toJson.depth ≤ Json.nestingLimit)
    (by decide +kernel)
  obtain ⟨hNumbers, hDepth⟩ := of_decide_eq_true hCheck
  have hConverted : p.Converted := by
    rw [Node.Converted, hNumbers]
    decide +kernel
  have hNesting : Json.nesting p.storedText ≤ Json.nestingLimit := by
    rw [hConverted.nesting_storedText]
    exact hDepth
  have hFinite : ∀ x ∈ p.numbers, isFinite x = true := by
    rw [hNumbers]
    decide +kernel
  refine ⟨p, _, hParse, (Node.ofStored_eq_ok_iff hConverted (Or.inr rfl)).mpr
    ⟨hNesting, hFinite, rfl⟩, ?_⟩
  rw [Node.sameAs_mapNumbers, hNumbers]
  decide +kernel

end Zaban
