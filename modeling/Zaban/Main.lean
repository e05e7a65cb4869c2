import Zaban.Host.CommandLine

/-!
# The program

The command line on the real files and streams. A file that is to be run is
read into a directory value first, and the tree file that the run may have
produced is written back afterwards. The loop takes its lines from the
standard input one by one, and what a line prints is shown before the next
line is read.

The clock of a run is read before the run begins and stands still during it,
because evaluation is a function of the world that it is given.
-/

namespace Zaban

/-- A world for a run that begins now, with an output that takes everything. -/
def startWorld : IO World := do
  let now ← IO.monoMsNow
  return .empty (.ofQuota none) fun _ => now

/-- Shows the bytes that a sink holds behind the first `shown`. -/
def showFrom (s : Sink) (shown : Nat) : IO Unit := do
  let out ← IO.getStdout
  out.write ⟨s.written.extract shown s.written.size⟩
  out.flush

/-- The directory that holds the file at `path` and nothing else. -/
def snapshot (path : String) : IO Directory := do
  try
    let bytes ← IO.FS.readBinFile path
    return Directory.empty.hold path (.file bytes.data)
  catch
    | .noFileOrDirectory .. => return .empty
    | _ => return Directory.empty.hold path .directory

/-- Runs the lines of the standard input. -/
partial def runLines (r : Repl) : IO Unit := do
  let input ← IO.getStdin
  let shown := r.world.sink.written.size
  match ← input.getLine.toBaseIO with
  | .ok line =>
    if line.isEmpty then showFrom (r.print Repl.farewell).world.sink shown
    else
      let r := r.line (Repl.meant line)
      showFrom r.world.sink shown
      runLines r
  | .error _ => showFrom (r.print Repl.notText).world.sink shown

/-- Writes the tree file that a run produced from the file at `path`. -/
def saveTree (d : Directory) (path : String) : IO Unit := do
  let target := Path.withExtension path treeExtension
  match d.read target with
  | .ok bytes => IO.FS.writeBinFile target ⟨bytes⟩
  | .error _ => pure ()

/-- Runs a file. The exit code tells whether it ended with a value. -/
def runPath (c : Command) (path : String) : IO UInt32 := do
  let run := runFile c.fileOptions (← snapshot path) path (← startWorld)
  showFrom run.world.sink 0
  if c.writeTree then saveTree run.directory path
  match run.result with
  | .ok _ => return 0
  | .error e =>
    IO.eprintln e.message
    return 1

end Zaban

def main (args : List String) : IO UInt32 := do
  match Zaban.Command.ofArgs? args with
  | none =>
    IO.eprintln Zaban.Command.usage
    return 2
  | some c =>
    match c.path with
    | some path => Zaban.runPath c path
    | none =>
      Zaban.runLines (.start c.config (← Zaban.startWorld))
      return 0
