import Zaban.Host.File
import Zaban.Host.Repl

/-!
# The command line

Options and at most one path, in any order. Each option is given at most
once, a flag takes no value, and `--` makes everything behind it a path. With
a path the file is run; without one the loop reads the standard input.

The exit code is zero when all went well, one when running a file failed, and
two when the command line itself was not understood.
-/

namespace Zaban

/-- What the command line asks for. -/
structure Command where
  printTree : Bool
  writeTree : Bool
  fromTree : Bool
  maxCallDepth : Option Nat
  path : Option String

namespace Command

/-- How the program is called. -/
def usage : String :=
  "Usage: koshur [--print-ast] [--write-ast] [--from-ast] [--max-call-depth <n>] [<file>]"

/-- The command without options. -/
def plain : Command where
  printTree := false
  writeTree := false
  fromTree := false
  maxCallDepth := none
  path := none

/-- Sets a flag, which must not be set yet. -/
def flag (c : Command) (name : String) : Option Command :=
  if name = "--print-ast" then
    if c.printTree then none else some { c with printTree := true }
  else if name = "--write-ast" then
    if c.writeTree then none else some { c with writeTree := true }
  else if name = "--from-ast" then
    if c.fromTree then none else some { c with fromTree := true }
  else none

/-- The option that takes a number. -/
def depthOption : String := "--max-call-depth"

/-- Reads a number of one machine word: digits, which may follow a plus sign. -/
def word? (s : String) : Option Nat :=
  let digits : List Char := match s.toList with
    | '+' :: cs => cs
    | cs => cs
  let n : Nat := digits.foldl (fun n c => n * 10 + (c.toNat - '0'.toNat)) 0
  if digits ≠ [] ∧ digits.all Char.isDigit ∧ n ≤ Json.maxWord then some n else none

/-- Sets the number of nested calls, which must not be set yet. -/
def depth (c : Command) (value : String) : Option Command :=
  if c.maxCallDepth.isSome then none
  else (word? value).map fun n => { c with maxCallDepth := some n }

/-- Sets the path, which must not be set yet and is not empty. -/
def setPath (c : Command) (path : String) : Option Command :=
  if c.path.isSome ∨ path.isEmpty then none else some { c with path := some path }

/-- Takes the remaining arguments as paths. -/
def paths : Command → List String → Option Command
  | c, [] => some c
  | c, path :: rest => do (← c.setPath path).paths rest

/-- The number given with the option that takes one, in the same argument. -/
def attached? (arg : String) : Option String :=
  let start := (depthOption ++ "=").toList
  if start.isPrefixOf arg.toList then some (String.ofList (arg.toList.drop start.length)) else none

/-- Takes the arguments in turn. -/
def take : Command → List String → Option Command
  | c, [] => some c
  | c, arg :: rest =>
    if arg = "--" then c.paths rest
    else if arg = depthOption then
      match rest with
      | [] => none
      | value :: rest => do (← c.depth value).take rest
    else
      match attached? arg with
      | some value => do (← c.depth value).take rest
      | none =>
        if arg.toList.head? = some '-' ∧ arg ≠ "-" then do (← c.flag arg).take rest
        else do (← c.setPath arg).take rest

/-- The command that the arguments spell, if they spell one. -/
def ofArgs? (args : List String) : Option Command :=
  plain.take args

/-- The limits that the command asks for. -/
def config (c : Command) : Config :=
  match c.maxCallDepth with
  | some n => ⟨n⟩
  | none => .standard

/-- The options for running a file. -/
def fileOptions (c : Command) : FileOptions where
  printTree := c.printTree
  writeTree := c.writeTree
  fromTree := c.fromTree
  config := c.config

end Command

/-- What the program leaves behind. -/
structure Exit where
  code : Nat
  output : Array UInt8
  errors : String
  directory : Directory

/-- Runs the program with the given arguments, files and standard input. -/
def runCommand (args : List String) (d : Directory) (input : Array UInt8) (w : World) : Exit :=
  match Command.ofArgs? args with
  | none => ⟨2, #[], "", d⟩
  | some c =>
    match c.path with
    | none => ⟨0, (Repl.session c.config w input).sink.written, "", d⟩
    | some path =>
      let run := runFile c.fileOptions d path w
      match run.result with
      | .ok _ => ⟨0, run.world.sink.written, "", run.directory⟩
      | .error e => ⟨1, run.world.sink.written, e.message ++ "\n", run.directory⟩

end Zaban
