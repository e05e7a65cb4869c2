import Zaban.Host.Repl
import Zaban.Proofs.Eval.Appending
import Zaban.Proofs.Eval.Halting
import Zaban.Proofs.Host.Persistence

/-!
# The hosts agree

A source text can be run on its own, in a root of a world. The two hosts, the
one for files and the one for lines, do more around such a run: they write
trees, print outcomes and go on after errors. This module says that the runs
themselves are the same.

* `runFile_source` — running a source file is running its text in a fresh root,
  behind the tree if that is to be printed.
* `Repl.foldl_line` — the loop prints for each line that is not blank what the
  line wrote and the rendering of its outcome. The lines are run in one root
  and each by an evaluator of its own (`World.runLines`).
* `runsLines_iff` — one evaluator for all lines, whose count of the calls under
  way goes on from line to line, comes to the same: the count is zero again
  behind every line, whatever the line ended in.
-/

namespace Zaban

-- ----------------------------------------------------------------------------
-- Source files
-- ----------------------------------------------------------------------------

/-- What is printed before the run of a file. -/
def FileOptions.preface (o : FileOptions) (program : Node) : Array UInt8 :=
  if o.printTree then (program.storedText ++ "\n").toUTF8.data else #[]

/-- What running a text on its own comes to: in a fresh root with the functions that every program
finds, with nothing written before. -/
def World.runAlone (w : World) (config : Config) (source : String) :
    Except RunError Value × World :=
  w.withRoot.silent.run config w.addRoot.1 source

section Files

variable {o : FileOptions} {d d' : Directory} {path source : String} {w : World}

theorem FileOptions.printTo_eq (hSink : w.sink.quota = none) (p : Node) :
    o.printTo p w.sink = (.ok (), (w.printed (o.preface p)).sink) := by
  rw [FileOptions.printTo, FileOptions.preface]
  split
  · simp only [Sink.write, hSink, World.printed]
  · simp only [World.printed, Array.append_empty]

theorem FileOptions.checkExtension_source
    (hExtension : Path.extension? path = some sourceExtension) :
    o.checkExtension path = .ok () := by
  simp only [FileOptions.checkExtension, hExtension, true_or, if_true]

/-- A file whose text is no program: nothing is printed and nothing is written. -/
theorem runFile_unparsed (hTree : o.fromTree = false)
    (hExtension : Path.extension? path = some sourceExtension)
    (hRead : d.read path = .ok source.toUTF8.data) {e : ParseError}
    (hParse : parse source = .error e) :
    runFile o d path w = ⟨.error (.run (.parse e)), d, w⟩ := by
  have hLoad : o.load d path = .error (.run (.parse e)) := by
    rw [FileOptions.load, hRead]
    simp only [Except.mapError, bind, Except.bind, Utf8.decode?_toUTF8, hTree, hParse]
    rfl
  simp only [runFile, FileOptions.checkExtension_source hExtension, hLoad]

/-- The root is the same, whatever was printed before. -/
theorem World.withRoot_printed (hSink : w.sink.quota = none) (bytes : Array UInt8) :
    (w.printed bytes).withRoot = w.withRoot.silent.behind (w.sink.written ++ bytes) := by
  rcases w with ⟨store, next, natives, ⟨written, quota⟩, clock, ticks⟩
  cases hSink
  simp only [World.behind, World.silent, Sink.ofQuota, Array.append_empty]
  rfl

/-- **A source file runs like its text**, behind what is printed before. -/
theorem runFile_source (hTree : o.fromTree = false)
    (hExtension : Path.extension? path = some sourceExtension)
    (hRead : d.read path = .ok source.toUTF8.data) (hSink : w.sink.quota = none) {p : Node}
    (hParse : parse source = .ok p) (hWrite : o.writeTo path p d = .ok d') :
    runFile o d path w = ⟨(w.runAlone o.config source).1.mapError .run, d',
      (w.runAlone o.config source).2.behind (w.sink.written ++ o.preface p)⟩ := by
  have hProgram : (w.printed (o.preface p)).withRoot.evaluate o.config w.addRoot.1 p =
      ((w.runAlone o.config source).1,
        (w.runAlone o.config source).2.behind (w.sink.written ++ o.preface p)) := by
    have hRun := (World.run_behind (w := w.withRoot.silent) rfl (w.sink.written ++ o.preface p)
      o.config w.addRoot.1 source).1
    rw [World.withRoot_printed hSink, World.runAlone, ← hRun, World.run, hParse]
  simp only [runFile, FileOptions.checkExtension_source hExtension,
    FileOptions.load_source hTree hRead hParse, FileOptions.printTo_eq hSink, hWrite]
  show FileRun.mk (((w.printed (o.preface p)).withRoot.evaluate o.config w.addRoot.1 p).1.mapError
    .run) d' ((w.printed (o.preface p)).withRoot.evaluate o.config w.addRoot.1 p).2 = _
  rw [hProgram]

end Files

-- ----------------------------------------------------------------------------
-- Lines
-- ----------------------------------------------------------------------------

/-- Is the line passed over? -/
def isBlankLine (line : String) : Bool :=
  line.toList.all Text.isBlank

/-- How a line ended, and what it wrote. -/
structure LineRun where
  result : Except RunError Value
  output : Array UInt8

/-- What is shown of a line: what it wrote, and how it ended. -/
def LineRun.shown (l : LineRun) : List UInt8 :=
  l.output.toList ++ (Repl.rendering l.result ++ "\n").toUTF8.data.toList

/-- Runs the lines that are not blank one after another in frame `env`, each by an evaluator of its
own. -/
def World.runLines (config : Config) (env : FrameId) : World → List String → List LineRun × World
  | w, [] => ([], w.silent)
  | w, l :: ls =>
    if isBlankLine l then runLines config env w ls
    else
      let (result, w) := w.silent.run config env l
      let (runs, last) := runLines config env w ls
      (⟨result, w.sink.written⟩ :: runs, last)

section Lines

variable {config : Config} {env : FrameId} {w w' : World}

theorem runLines_blank {l : String} (h : isBlankLine l = true) (ls : List String) :
    w.runLines config env (l :: ls) = w.runLines config env ls := by
  rw [World.runLines, if_pos h]

theorem runLines_line {l : String} (hBlank : isBlankLine l = false) {result : Except RunError Value}
    (hRun : w.silent.run config env l = (result, w')) (ls : List String) :
    w.runLines config env (l :: ls) =
      (⟨result, w'.sink.written⟩ :: (w'.runLines config env ls).1,
        (w'.runLines config env ls).2) := by
  rw [World.runLines, if_neg (Bool.eq_false_iff.mp hBlank), hRun]

theorem World.Formed.silent (h : w.Formed) : w.silent.Formed :=
  ⟨h.older, h.live, h.natives⟩

/-- The lines do not see what was written before. -/
theorem runLines_silent (h : w.silent = w'.silent) (ls : List String) :
    w.runLines config env ls = w'.runLines config env ls := by
  induction ls with
  | nil => rw [World.runLines, World.runLines, h]
  | cons l ls ih => rw [World.runLines, World.runLines, h, ih]

theorem Repl.print_eq {r : Repl} (hSink : r.world.sink.quota = none) (text : String) :
    r.print text = { r with world := r.world.printed (text ++ "\n").toUTF8.data } := by
  simp only [Repl.print, Sink.write, hSink, World.printed]

theorem Repl.line_blank (r : Repl) {l : String} (h : isBlankLine l = true) : r.line l = r := by
  rw [Repl.line]
  exact if_pos h

/-- What the loop holds behind a line that is not blank. -/
theorem Repl.line_eq {r : Repl} (hSink : r.world.sink.quota = none) {l : String}
    (h : isBlankLine l = false) {result : Except RunError Value}
    (hRun : r.world.silent.run r.config r.env l = (result, w)) :
    w.sink.quota = none ∧ r.line l = ⟨r.config, r.env, (w.behind r.world.sink.written).printed
      (Repl.rendering result ++ "\n").toUTF8.data⟩ := by
  obtain ⟨hBehind, hQuota⟩ := World.run_behind (w := r.world.silent) rfl r.world.sink.written
    r.config r.env l
  rw [World.behind_silent hSink, hRun] at hBehind
  rw [hRun] at hQuota
  refine ⟨hQuota, ?_⟩
  have hNot : ¬ (l.toList.all Text.isBlank) = true := Bool.eq_false_iff.mp h
  rw [Repl.line, if_neg hNot, hBehind]
  exact Repl.print_eq hQuota _

/-- **The loop shows every line** that is not blank, and nothing else. -/
theorem Repl.foldl_line {r : Repl} (hSink : r.world.sink.quota = none) (ls : List String) :
    (ls.foldl Repl.line r).world.sink.quota = none ∧
    (ls.foldl Repl.line r).world.sink.written.toList = r.world.sink.written.toList ++
      (r.world.runLines r.config r.env ls).1.flatMap LineRun.shown := by
  induction ls generalizing r with
  | nil => exact ⟨hSink, (List.append_nil _).symm⟩
  | cons l ls ih =>
    rw [List.foldl_cons]
    cases hBlank : isBlankLine l with
    | true =>
      rw [r.line_blank hBlank, runLines_blank hBlank]
      exact ih hSink
    | false =>
      rcases hRun : r.world.silent.run r.config r.env l with ⟨result, w⟩
      obtain ⟨hQuota, hLine⟩ := Repl.line_eq hSink hBlank hRun
      obtain ⟨hEnd, hWritten⟩ := ih (r := r.line l) (by rw [hLine]; exact hQuota)
      have hLines : (r.line l).world.runLines r.config r.env ls = w.runLines r.config r.env ls := by
        have hSame : (r.line l).world.silent = w.silent := by rw [hLine]; rfl
        exact runLines_silent hSame ls
      have hShown : (r.line l).world.sink.written.toList =
          r.world.sink.written.toList ++ LineRun.shown ⟨result, w.sink.written⟩ := by
        rw [hLine]
        simp only [World.printed, World.behind, Array.toList_append, LineRun.shown,
          List.append_assoc]
      have hConfig : (r.line l).config = r.config := by rw [hLine]
      have hEnv : (r.line l).env = r.env := by rw [hLine]
      rw [hConfig, hEnv, hLines] at hWritten
      rw [runLines_line hBlank hRun]
      refine ⟨hEnd, ?_⟩
      rw [hWritten, hShown, List.flatMap_cons, List.append_assoc]

/-- The lines of an input that is text, delivered as they are meant. -/
theorem Repl.lines_texts (r : Repl) (texts : List String) :
    r.lines (texts.map fun t => t.toUTF8.data.toList) =
      ((texts.map Repl.meant).foldl Repl.line r).print Repl.farewell := by
  induction texts generalizing r with
  | nil => rfl
  | cons t ts ih =>
    have hText : Utf8.decode? t.toUTF8.data.toList.toArray = some t := Utf8.decode?_toUTF8 t
    simp only [List.map_cons, Repl.lines, hText, List.foldl_cons]
    exact ih (r.line (Repl.meant t))

end Lines

-- ----------------------------------------------------------------------------
-- One evaluator for all lines
-- ----------------------------------------------------------------------------

namespace Stepwise

/-- What one evaluator does with the lines that are not blank. Its count of the calls under way goes
on from line to line. -/
inductive RunsLines (config : Config) (env : FrameId) :
    (depth : Nat) → World → List String → List LineRun → (depth' : Nat) → World → Prop where
  | done {depth : Nat} {w : World} : RunsLines config env depth w [] [] depth w.silent
  | blank {depth depth' : Nat} {w w' : World} {l : String} {ls : List String} {runs : List LineRun}
      (hBlank : isBlankLine l = true) (hRest : RunsLines config env depth w ls runs depth' w') :
      RunsLines config env depth w (l :: ls) runs depth' w'
  | unparsed {depth depth' : Nat} {w w' : World} {l : String} {ls : List String}
      {runs : List LineRun} {e : ParseError} (hBlank : isBlankLine l = false)
      (hParse : parse l = .error e)
      (hRest : RunsLines config env depth w.silent ls runs depth' w') :
      RunsLines config env depth w (l :: ls) (⟨.error (.parse e), #[]⟩ :: runs) depth' w'
  | parsed {depth between depth' : Nat} {w v w' : World} {l : String} {ls : List String}
      {runs : List LineRun} {n : Node} {result : Except EvalError Value}
      (hBlank : isBlankLine l = false) (hParse : parse l = .ok n)
      (hRun : (⟨.eval env n, [], depth, w.silent⟩ : State).Reaches config.maxCallDepth
        ⟨.give result, [], between, v⟩)
      (hRest : RunsLines config env between v ls runs depth' w') :
      RunsLines config env depth w (l :: ls) (⟨result.mapError .eval, v.sink.written⟩ :: runs)
        depth' w'

section Evaluators

variable {config : Config} {env : FrameId} {w w' : World}

theorem run_unparsed {l : String} {e : ParseError} (hParse : parse l = .error e) :
    w.run config env l = (.error (.parse e), w) := by
  rw [World.run, hParse]

/-- A line that is a program: an evaluator that starts with no calls under way ends with none, and
with what a fresh one gives. -/
theorem run_parsed (hFormed : w.Formed) (hEnv : env < w.store.next) {l : String} {n : Node}
    (hParse : parse l = .ok n) :
    ∃ result v, w.run config env l = (result.mapError .eval, v) ∧ v.Formed ∧ env < v.store.next ∧
      (⟨.eval env n, [], 0, w⟩ : State).Reaches config.maxCallDepth ⟨.give result, [], 0, v⟩ := by
  rcases hRun : (evaluate config env n).runIn w with ⟨result, v⟩
  obtain ⟨hKept, hNext, -⟩ := evalNode_keeps hFormed hEnv hRun
  have hComes := eval_comes (call_comes (Nat.sub_zero config.maxCallDepth)) n hFormed hEnv []
  have hSame : (evalNode (callWithin config.maxCallDepth config.maxCallDepth) env n).runIn w =
      (result, v) := hRun
  rw [hSame] at hComes
  refine ⟨result, v, ?_, hKept, Nat.lt_of_lt_of_le hEnv hNext, hComes⟩
  simp only [World.run, hParse, World.evaluate, hRun]

theorem RunsLines.of_runLines (hFormed : w.Formed) (hEnv : env < w.store.next) (ls : List String) :
    RunsLines config env 0 w ls (w.runLines config env ls).1 0 (w.runLines config env ls).2 := by
  induction ls generalizing w with
  | nil => exact .done
  | cons l ls ih =>
    cases hBlank : isBlankLine l with
    | true =>
      rw [runLines_blank hBlank]
      exact .blank hBlank (ih hFormed hEnv)
    | false =>
      cases hParse : parse l with
      | error e =>
        rw [runLines_line hBlank (run_unparsed hParse)]
        exact .unparsed hBlank hParse (ih hFormed.silent hEnv)
      | ok n =>
        obtain ⟨result, v, hRun, hKept, hNext, hReaches⟩ := run_parsed hFormed.silent hEnv hParse
        rw [runLines_line hBlank hRun]
        exact .parsed hBlank hParse hReaches (ih hKept hNext)

/-- The count is zero again behind every line. -/
theorem RunsLines.eq_runLines {depth depth' : Nat} {ls : List String} {runs : List LineRun}
    (h : RunsLines config env depth w ls runs depth' w') (hDepth : depth = 0) (hFormed : w.Formed)
    (hEnv : env < w.store.next) : depth' = 0 ∧ (runs, w') = w.runLines config env ls := by
  induction h with
  | done => exact ⟨hDepth, rfl⟩
  | blank hBlank _ ih =>
    rw [runLines_blank hBlank]
    exact ih hDepth hFormed hEnv
  | unparsed hBlank hParse _ ih =>
    obtain ⟨hEnd, hRest⟩ := ih hDepth hFormed.silent hEnv
    refine ⟨hEnd, ?_⟩
    rw [runLines_line hBlank (run_unparsed hParse), ← hRest]
    rfl
  | parsed hBlank hParse hRun _ ih =>
    subst hDepth
    obtain ⟨result, v, hLine, hKept, hNext, hReaches⟩ := run_parsed hFormed.silent hEnv hParse
    obtain ⟨⟨⟩, -, rfl, rfl⟩ := State.mk.inj (hRun.unique rfl hReaches rfl)
    obtain ⟨hEnd, hRest⟩ := ih rfl hKept hNext
    refine ⟨hEnd, ?_⟩
    rw [runLines_line hBlank hLine, ← hRest]

/-- **One evaluator for all lines does what an evaluator for each line does.** -/
theorem runsLines_iff (hFormed : w.Formed) (hEnv : env < w.store.next) {ls : List String}
    {runs : List LineRun} {depth : Nat} :
    RunsLines config env 0 w ls runs depth w' ↔
      depth = 0 ∧ (runs, w') = w.runLines config env ls := by
  constructor
  · intro h
    exact h.eq_runLines rfl hFormed hEnv
  · rintro ⟨rfl, hRuns⟩
    have hLines : RunsLines config env 0 w ls (w.runLines config env ls).1 0
        (w.runLines config env ls).2 := .of_runLines hFormed hEnv ls
    rw [← hRuns] at hLines
    exact hLines

end Evaluators

end Stepwise

-- ----------------------------------------------------------------------------
-- Agreement
-- ----------------------------------------------------------------------------

theorem World.root_lt_next (w : World) : w.addRoot.1 < w.withRoot.store.next := by
  have hNext : w.withRoot.store.next = w.store.next + 1 := by
    simp only [World.withRoot, World.installStandard, World.install, World.define, World.addNative,
      World.addRoot, World.addFrame, Store.next_define, Store.next_add]
  rw [hNext]
  exact Nat.lt_succ_self _

/--
**The hosts agree.** In a well-formed world whose sink takes everything:

A source file ends as its text does on its own, in a fresh root with the
functions that every program finds. It prints what the text prints, behind the
tree if that is asked for; the tree file is written exactly if that is asked
for, and then holds the text of the tree. If the text is no program, nothing is
printed and no file is written.

The loop prints, for each line that is not blank, what the line writes and the
rendering of how it ends, with one root and one evaluator for all lines. Each
line ends as it does with an evaluator of its own, whatever the lines before it
ended in.
-/
theorem hosts_agree {w : World} (hFormed : w.Formed) (hSink : w.sink.quota = none) :
    (∀ (o : FileOptions) (d : Directory) (path source : String), o.fromTree = false →
      Path.extension? path = some sourceExtension → d.read path = .ok source.toUTF8.data →
      let target := Path.withExtension path treeExtension
      let alone := w.runAlone o.config source
      let run := runFile o d path w
      (∀ e, parse source = .error e →
        run = ⟨.error (.run (.parse e)), d, w⟩ ∧ alone.1 = .error (.parse e)) ∧
      (∀ p, parse source = .ok p →
        (o.writeTree = true → ∃ d', d.write target p.storedText.toUTF8.data = .ok d') →
        run.result = alone.1.mapError .run ∧
        run.world.sink.written = w.sink.written ++
          (if o.printTree then (p.storedText ++ "\n").toUTF8.data else #[]) ++
          alone.2.sink.written ∧
        (o.writeTree = true → d.write target p.storedText.toUTF8.data = .ok run.directory ∧
          run.directory.read target = .ok p.storedText.toUTF8.data) ∧
        (o.writeTree = false → run.directory = d))) ∧
    (∀ (config : Config) (lines : List String),
      let start := Repl.start config w
      let runs := start.world.runLines config start.env lines
      (∀ shown depth last,
        Stepwise.RunsLines config start.env 0 start.world lines shown depth last ↔
          depth = 0 ∧ (shown, last) = runs) ∧
      (lines.foldl Repl.line start).world.sink.written.toList =
        w.sink.written.toList ++ runs.1.flatMap LineRun.shown ∧
      (∀ texts : List String, texts.map Repl.meant = lines →
        (start.lines (texts.map fun t => t.toUTF8.data.toList)).world.sink.written.toList =
          w.sink.written.toList ++ runs.1.flatMap LineRun.shown ++
            (Repl.farewell ++ "\n").toUTF8.data.toList)) := by
  constructor
  · intro o d path source hTree hExtension hRead target alone run
    constructor
    · intro e hParse
      exact ⟨runFile_unparsed hTree hExtension hRead hParse,
        congrArg Prod.fst (Stepwise.run_unparsed hParse)⟩
    · intro p hParse hWrites
      obtain ⟨d', hWrite, hWritten, hKept⟩ : ∃ d', o.writeTo path p d = .ok d' ∧
          (o.writeTree = true → d.write target p.storedText.toUTF8.data = .ok d') ∧
          (o.writeTree = false → d' = d) := by
        cases hAsked : o.writeTree with
        | false => exact ⟨d, by simp only [FileOptions.writeTo, hAsked]; rfl, by simp, by simp⟩
        | true =>
          obtain ⟨d', hWritten⟩ := hWrites hAsked
          exact ⟨d', FileOptions.writeTo_tree hAsked hWritten, fun _ => hWritten, by simp⟩
      have hRun : run = _ := runFile_source hTree hExtension hRead hSink hParse hWrite
      rw [hRun]
      refine ⟨rfl, rfl, fun hAsked => ?_, hKept⟩
      exact ⟨hWritten hAsked, Directory.read_write (hWritten hAsked)⟩
  · intro config lines start runs
    have hStart : start.world.sink.quota = none := hSink
    obtain ⟨hQuota, hShown⟩ := Repl.foldl_line hStart lines
    refine ⟨?_, hShown, ?_⟩
    · intro shown depth last
      exact Stepwise.runsLines_iff hFormed.withRoot w.root_lt_next
    · rintro texts rfl
      rw [Repl.lines_texts, Repl.print_eq hQuota]
      simp only [World.printed, Array.toList_append, hShown]
      rfl

/-- The world in which a host starts, with a clock that stands still. -/
def hostWorld : World :=
  .empty (.ofQuota none) fun _ => 0

/-- Lines that end in a value, in too many calls, in no program and in a value again, and a blank
one. -/
def mixedLines : List String :=
  ["f = banav() f()", "f()", " \t", "1 +", "wan(2)"]

/-- A file whose tree is printed and written, and lines that fail in two ways. -/
theorem hosts_agree_mixed :
    (∃ p, parse "1 + 0.5" = .ok p ∧
      (runFile ⟨true, true, false, ⟨9⟩⟩ sumFile "sum.k" hostWorld).result =
        (hostWorld.runAlone ⟨9⟩ "1 + 0.5").1.mapError .run ∧
      (runFile ⟨true, true, false, ⟨9⟩⟩ sumFile "sum.k" hostWorld).directory.read "sum.ast" =
        .ok p.storedText.toUTF8.data) ∧
    (∃ runs last,
      Stepwise.RunsLines ⟨3⟩ (Repl.start ⟨3⟩ hostWorld).env 0 (Repl.start ⟨3⟩ hostWorld).world
        mixedLines runs 0 last ∧
      (mixedLines.foldl Repl.line (Repl.start ⟨3⟩ hostWorld)).world.sink.written.toList =
        hostWorld.sink.written.toList ++ runs.flatMap LineRun.shown ∧
      runs.map (fun r => r.result.toOption.isSome) = [true, false, false, true]) := by
  obtain ⟨hFiles, hLoop⟩ := hosts_agree (w := hostWorld) (World.formed_empty _ _) rfl
  constructor
  · obtain ⟨p, hParse, -⟩ := exists_parse "1 + 0.5" (fun _ => true) (by decide +kernel)
    have hTarget : Path.withExtension "sum.k" treeExtension = "sum.ast" := by decide
    obtain ⟨hResult, -, hWritten, -⟩ :=
      (hFiles ⟨true, true, false, ⟨9⟩⟩ sumFile "sum.k" "1 + 0.5" rfl (by decide) rfl).2 p hParse
        fun _ => ⟨_, rfl⟩
    have hFile := (hWritten rfl).2
    rw [hTarget] at hFile
    exact ⟨p, hParse, hResult, hFile⟩
  · obtain ⟨hRuns, hShown, -⟩ := hLoop ⟨3⟩ mixedLines
    have hResults : ((Repl.start ⟨3⟩ hostWorld).world.runLines ⟨3⟩ (Repl.start ⟨3⟩ hostWorld).env
        mixedLines).1.map (fun r => r.result.toOption.isSome) = [true, false, false, true] := by
      decide +kernel
    generalize World.runLines ⟨3⟩ (Repl.start ⟨3⟩ hostWorld).env (Repl.start ⟨3⟩ hostWorld).world
      mixedLines = runs at hRuns hShown hResults
    exact ⟨runs.1, runs.2, (hRuns _ 0 _).mpr ⟨rfl, rfl⟩, hShown, hResults⟩

end Zaban
