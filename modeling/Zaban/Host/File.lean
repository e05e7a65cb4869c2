import Zaban.Eval.Natives
import Zaban.Eval.Run
import Zaban.Host.Directory
import Zaban.Syntax.Stored
import Zaban.Text.Utf8

/-!
# Running a file

A program is kept in a source file or, as a tree, in a tree file; the
extension tells them apart. Running one reads the file, writes the tree where
that is asked for, to the output or to the file of the same name with the
extension of tree files, and evaluates the program in a fresh root with the
native functions that every program finds. The first step that fails ends the
run, and what was written before it stays.
-/

namespace Zaban

/-- The extension of source files. -/
def sourceExtension : String := "k"

/-- The extension of tree files. -/
def treeExtension : String := "ast"

/-- What to do with a file. -/
structure FileOptions where
  /-- Write the tree to the output before the run. -/
  printTree : Bool
  /-- Write the tree to a file before the run. -/
  writeTree : Bool
  /-- The file holds a tree. -/
  fromTree : Bool
  config : Config

/-- Why running a file ends without a value. -/
inductive FileError where
  /-- The file does not have the extension `expected`. -/
  | badExtension (path expected : String)
  /-- The file cannot be read. -/
  | read (path : String) (fault : FileFault)
  /-- Something cannot be written. -/
  | write (path reason : String)
  /-- The file does not store a tree. -/
  | tree (path : String) (defect : Json.Defect)
  /-- The program is none, or fails. -/
  | run (error : RunError)

/-- Describes why a text stores no tree. -/
def Json.Defect.message : Json.Defect → String
  | truncated => "the text ends too early"
  | malformed => "the text is not valid JSON"
  | misshapen => "the text does not describe a program"

/-- The wording of an error. -/
def FileError.message : FileError → String
  | badExtension path expected =>
    "Usage: koshur [--print-ast] [--write-ast] [--from-ast] <file." ++ expected ++ ">, got "
      ++ Text.quoted path
  | read path fault => "Could not open file " ++ Text.quoted path ++ ": " ++ fault.message
  | write path reason => "Could not write file " ++ Text.quoted path ++ ": " ++ reason
  | tree path defect => "Invalid AST in " ++ Text.quoted path ++ ": " ++ defect.message
  | run error => error.message

namespace FileOptions

/-- Checks the extension of a path. Source files are always taken, tree files where a tree is asked
for. -/
def checkExtension (o : FileOptions) (path : String) : Except FileError Unit :=
  let ext := Path.extension? path
  if ext = some sourceExtension ∨ (o.fromTree ∧ ext = some treeExtension) then .ok ()
  else .error (.badExtension path (if o.fromTree then treeExtension else sourceExtension))

/-- Reads the program in a file. -/
def load (o : FileOptions) (d : Directory) (path : String) : Except FileError Node := do
  let bytes ← (d.read path).mapError (.read path)
  match Utf8.decode? bytes with
  | none => throw (.read path .notText)
  | some text =>
    if o.fromTree then (Node.ofStored text).mapError (.tree path)
    else (parse text).mapError fun e => .run (.parse e)

/-- Writes a program as a tree to the sink. -/
def printTo (o : FileOptions) (program : Node) (s : Sink) : Except FileError Unit × Sink :=
  if o.printTree then
    match s.write (program.storedText ++ "\n") with
    | (none, s) => (.ok (), s)
    | (some reason, s) => (.error (.write "<output>" reason), s)
  else (.ok (), s)

/-- Writes a program as a tree next to the file it came from. -/
def writeTo (o : FileOptions) (path : String) (program : Node) (d : Directory) :
    Except FileError Directory :=
  if o.writeTree then
    let target := Path.withExtension path treeExtension
    (d.write target program.storedText.toUTF8.data).mapError fun f => .write target f.message
  else .ok d

end FileOptions

/-- How running a file ends, with the files and the world at that time. The frames are those of the
run. -/
structure FileRun where
  result : Except FileError Value
  directory : Directory
  world : World

/-- Runs the file at `path`. -/
def runFile (o : FileOptions) (d : Directory) (path : String) (w : World) : FileRun :=
  match o.checkExtension path with
  | .error e => ⟨.error e, d, w⟩
  | .ok () =>
    match o.load d path with
    | .error e => ⟨.error e, d, w⟩
    | .ok program =>
      match o.printTo program w.sink with
      | (.error e, sink) => ⟨.error e, d, { w with sink }⟩
      | (.ok (), sink) =>
        let w := { w with sink }
        match o.writeTo path program d with
        | .error e => ⟨.error e, d, w⟩
        | .ok d =>
          let (env, w) := w.addRoot
          let (result, w) := (w.installStandard env).evaluate o.config env program
          ⟨result.mapError .run, d, w⟩

end Zaban
