import Zaban.Proofs.Host.Persistence
import Zaban.Proofs.Syntax.Canonical

/-!
# Trees that are read and written again

A run can read a tree from a file and write it to the same file. What it leaves
there can be read again (`accepted_texts_are_rewritten`). The text that it
writes is not the text that it read: members that are no fields are gone, and
every number is written anew. But it nests no deeper, and the numbers are
finite, so the reader takes it.

A run changes one file at most (`runFile_directory`), and a path leads to what
it led to before or to what was written (`Directory.read_after_write`). So
nothing is said about where the tree is written: every file that held a tree
before the run holds one afterwards.
-/

namespace Zaban

/-- The text that is written for a tree is read again, as the text was that the tree comes from. -/
theorem Node.ofStored_rewritten {text written : String} {n : Node}
    (hRead : Node.ofStored text = .ok n) (hConverted : n.Converted) (hText : n.Written written) :
    Json.nesting written ≤ Json.nesting text ∧
      Node.ofStored written = .ok (n.mapNumbers Json.reread) := by
  obtain ⟨hWritable, hLimit⟩ := Node.ofStored_writable hRead
  have hDepth : Json.nesting written ≤ Json.nesting text := by
    rw [Json.nesting_written hConverted.toJson hText]
    exact hWritable.depth_le
  refine ⟨hDepth, (Node.ofStored_eq_ok_iff hConverted hText).mpr ⟨?_, hWritable.finite, rfl⟩⟩
  exact hDepth.trans hLimit

section Files

variable {o : FileOptions} {d d' : Directory} {path : String}

theorem Directory.read_eq_ok_iff {bytes : Array UInt8} :
    d.read path = .ok bytes ↔ ∃ p, d.locate path = .ok p ∧ d.entry? p = some (.file bytes) := by
  rw [Directory.read]
  cases d.locate path with
  | error fault => simp [bind, Except.bind]
  | ok p =>
    simp only [bind, Except.bind, Except.ok.injEq, exists_eq_left']
    split <;> simp_all [pure, Except.pure, throw, throwThe, MonadExceptOf.throw]

theorem Directory.file_at_iff {bytes : Array UInt8} {p : Place} :
    d.entry? p = some (.file bytes) ↔
      p.names.isEmpty = false ∧ d.entries.lookup p = some (.file bytes) := by
  unfold Directory.entry?
  cases p.names.isEmpty with
  | true => simp
  | false =>
    cases d.entries.lookup p with
    | none => simp
    | some e => simp

/-- A file that is written somewhere leaves every other file as it was. -/
theorem Directory.read_after_write {target : String} {bytes bytes' : Array UInt8}
    (hWrite : d.write target bytes = .ok d') (hRead : d.read path = .ok bytes') :
    d'.read path = .ok bytes' ∨ d'.read path = .ok bytes := by
  obtain ⟨p, -, hPlace, rfl⟩ := Directory.exists_put_of_write hWrite
  obtain ⟨q, hLocate, hEntry⟩ := Directory.read_eq_ok_iff.mp hRead
  obtain ⟨hNamed, hLookup⟩ := Directory.file_at_iff.mp hEntry
  have hAfter := Directory.locate_put (e := .file bytes) hPlace hLocate
  by_cases hSame : q = p
  · -- the path leads to the place of the new file
    subst hSame
    refine Or.inr (Directory.read_eq_ok_iff.mpr ⟨q, hAfter, ?_⟩)
    exact Directory.file_at_iff.mpr ⟨hNamed, Directory.lookup_put_self⟩
  · rw [← Directory.lookup_put_of_ne hSame] at hLookup
    refine Or.inl (Directory.read_eq_ok_iff.mpr ⟨q, hAfter, ?_⟩)
    exact Directory.file_at_iff.mpr ⟨hNamed, hLookup⟩

theorem FileOptions.writeTo_eq_ok {n : Node} (h : o.writeTo path n d = .ok d') :
    d' = d ∨
      d.write (Path.withExtension path treeExtension) n.storedText.toUTF8.data = .ok d' := by
  simp only [FileOptions.writeTo] at h
  split at h
  · right
    cases hFile : d.write (Path.withExtension path treeExtension) n.storedText.toUTF8.data with
    | error fault =>
      rw [hFile] at h
      cases h
    | ok e =>
      rw [hFile] at h
      rw [Except.ok.inj h]
  · exact Or.inl (Except.ok.inj h).symm

/-- What a run leaves are the files that it found, or those with the tree written among them. -/
theorem runFile_directory (o : FileOptions) (d : Directory) (path : String) (w : World) :
    (runFile o d path w).directory = d ∨
      ∃ n, o.load d path = .ok n ∧
        d.write (Path.withExtension path treeExtension) n.storedText.toUTF8.data =
          .ok (runFile o d path w).directory := by
  unfold runFile
  split
  · exact Or.inl rfl
  split
  · exact Or.inl rfl
  rename_i n hLoad
  split
  · exact Or.inl rfl
  split
  · exact Or.inl rfl
  rename_i e hWrite
  show e = d ∨ ∃ n, _ ∧ d.write _ _ = .ok e
  rcases FileOptions.writeTo_eq_ok hWrite with rfl | hFile
  · exact Or.inl rfl
  · exact Or.inr ⟨n, hLoad, hFile⟩

theorem FileOptions.exists_read_of_load {n : Node} (h : o.load d path = .ok n) :
    ∃ bytes, d.read path = .ok bytes := by
  cases hRead : d.read path with
  | error fault =>
    rw [FileOptions.load, hRead] at h
    cases h
  | ok bytes => exact ⟨bytes, rfl⟩

theorem FileOptions.load_congr (h : d'.read path = d.read path) :
    o.load d' path = o.load d path := by
  rw [FileOptions.load, FileOptions.load, h]

end Files

/--
**Whatever is accepted can be written and read again.** Of a text that is read
as a tree, where the numbers of the tree are converted to some number when
their texts are read: the numbers are finite, and both texts that are written
for the tree nest no deeper than the text and are read as the tree with its
numbers converted. So a run that reads the tree from a file leaves the files as
they were, or with that tree in the file that it writes; and every file that
was read as a tree before the run, the one that it read among them, is read as
a tree after it.
-/
theorem accepted_texts_are_rewritten {text : String} {n : Node}
    (hRead : Node.ofStored text = .ok n) (hConverted : n.Converted) :
    (∀ x ∈ n.numbers, isFinite x = true) ∧
    (∀ written, n.Written written → Json.nesting written ≤ Json.nesting text ∧
      Node.ofStored written = .ok (n.mapNumbers Json.reread)) ∧
    ∀ (o : FileOptions) (d : Directory) (path : String) (w : World),
      o.fromTree = true → d.read path = .ok text.toUTF8.data →
      let after := (runFile o d path w).directory
      (after = d ∨ o.load after (Path.withExtension path treeExtension) =
        .ok (n.mapNumbers Json.reread)) ∧
      ∀ file m, o.load d file = .ok m →
        o.load after file = .ok m ∨ o.load after file = .ok (n.mapNumbers Json.reread) := by
  refine ⟨(Node.ofStored_writable hRead).1.finite,
    fun written hText => Node.ofStored_rewritten hRead hConverted hText, ?_⟩
  intro o d path w hTree hFile after
  have hLoad := FileOptions.load_tree hTree hFile hRead
  have hStored := (Node.ofStored_rewritten hRead hConverted (Or.inr rfl)).2
  rcases runFile_directory o d path w with hSame | ⟨n', hLoad', hWrite⟩
  · rw [show after = d from hSame]
    exact ⟨Or.inl rfl, fun file m hm => Or.inl hm⟩
  rw [hLoad] at hLoad'
  obtain rfl := Except.ok.inj hLoad'
  refine ⟨Or.inr (FileOptions.load_tree hTree (Directory.read_write hWrite) hStored), ?_⟩
  intro file m hm
  obtain ⟨bytes, hBytes⟩ := FileOptions.exists_read_of_load hm
  rcases Directory.read_after_write hWrite hBytes with hOld | hNew
  · refine Or.inl ?_
    rw [← hm]
    exact FileOptions.load_congr (hOld.trans hBytes.symm)
  · exact Or.inr (FileOptions.load_tree hTree hNew hStored)

/-- A stored tree with a property that can be computed. -/
theorem exists_stored (text : String) (check : Node → Bool)
    (h : (Node.ofStored text).toOption.any check = true) :
    ∃ n, Node.ofStored text = .ok n ∧ check n = true := by
  cases hStored : Node.ofStored text with
  | error e =>
    rw [hStored] at h
    cases h
  | ok n =>
    rw [hStored] at h
    exact ⟨n, rfl, h⟩

/-- A stored tree with its forms by name and by number, in an array and in objects, with a member
that is no field, an operator as an object and a branch that is absent. -/
def oddText : String :=
  "[\"condition\", \x7b\"value\": true, \"note\": [[1e2]], \"type\": 9\x7d," ++
    " \x7b\"operator\": \x7b\"+\": null\x7d, \"left\": [7, 1]," ++
    " \"type\": \"binary\", \"right\": [\"number\", 0.5]\x7d, null]"

/-- A file with that text. -/
def oddFile : Directory :=
  .ofEntries [("tree.ast", .file oddText.toUTF8.data)]

/-- A text that is far from what is written, in a file that is overwritten. -/
theorem accepted_texts_are_rewritten_odd : ∃ n, Node.ofStored oddText = .ok n ∧
    n.numbers = [1, 0.5] ∧ Node.ofStored n.storedText = .ok (n.mapNumbers Json.reread) ∧
    Path.withExtension "tree.ast" treeExtension = "tree.ast" ∧
    ∀ (o : FileOptions) (w : World), o.fromTree = true →
      ∃ m, o.load (runFile o oddFile "tree.ast" w).directory "tree.ast" = .ok m := by
  obtain ⟨n, hRead, hCheck⟩ := exists_stored oddText (fun n => n.numbers = [1, 0.5])
    (by decide +kernel)
  have hNumbers := of_decide_eq_true hCheck
  have hConverted : n.Converted := by
    rw [Node.Converted, hNumbers]
    decide +kernel
  obtain ⟨-, hWritten, hFiles⟩ := accepted_texts_are_rewritten hRead hConverted
  refine ⟨n, hRead, hNumbers, (hWritten _ (Or.inr rfl)).2, by decide, fun o w hTree => ?_⟩
  have hLoad : o.load oddFile "tree.ast" = .ok n := FileOptions.load_tree hTree rfl hRead
  rcases (hFiles o oddFile "tree.ast" w hTree rfl).2 "tree.ast" n hLoad with hSame | hNew
  · exact ⟨_, hSame⟩
  · exact ⟨_, hNew⟩

end Zaban
