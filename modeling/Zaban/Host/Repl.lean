import Zaban.Eval.Natives
import Zaban.Eval.Run
import Zaban.Text.Blank
import Zaban.Text.Erase
import Zaban.Text.Utf8

/-!
# Reading, evaluating and printing line by line

The loop runs each line of its input as a program of its own, in one root, so
definitions persist from line to line, and prints its value or its error on
the output of the program. Blank lines are passed over. A text is printed
quoted, so that it can be told apart from other values.

A line ends with a line feed, which may follow a carriage return; the last
line may lack it. Backspaces in it take back what stands before them. The
loop ends with its input, or at a line that is not text.
-/

namespace Zaban

/-- The heading of an error, by the stage at which it arose. -/
def Stage.heading : Stage → String
  | reading => "Error reading"
  | parsing => "Error parsing"
  | evaluating => "Error evaluating"

/-- The loop between two lines. -/
structure Repl where
  config : Config
  env : FrameId
  world : World

namespace Repl

/-- The loop before its first line. -/
def start (config : Config) (w : World) : Repl :=
  let (env, w) := w.addRoot
  ⟨config, env, w.installStandard env⟩

/-- Prints a line. -/
def print (r : Repl) (text : String) : Repl :=
  { r with world := { r.world with sink := (r.world.sink.write (text ++ "\n")).2 } }

/-- What is printed for the outcome of a line. -/
def rendering : Except RunError Value → String
  | .ok (.string s) => Text.quoted s
  | .ok v => v.text
  | .error e => e.stage.heading ++ ":\n" ++ e.message

/-- A line without its ending. -/
def chomp (line : List Char) : List Char :=
  match line.reverse with
  | '\n' :: '\r' :: back => back.reverse
  | '\n' :: back => back.reverse
  | _ => line

/-- A line as it is meant: without its ending, and without what was taken back. -/
def meant (text : String) : String :=
  String.ofList (Text.takeBack (chomp text.toList))

/-- Runs a line. -/
def line (r : Repl) (text : String) : Repl :=
  if text.toList.all Text.isBlank then r
  else
    let (result, world) := r.world.run r.config r.env text
    { r with world }.print (rendering result)

/-- What is printed where the input ends. -/
def farewell : String := "CTRL-D"

/-- What is printed for a line that is not text. -/
def notText : String :=
  "Error: Io(Error \x7b kind: InvalidData, message: \"stream did not contain valid UTF-8\" \x7d)"

/-- Splits bytes into lines, each with its ending. -/
def splitLines (bytes : List UInt8) : List (List UInt8) :=
  go bytes []
where
  go : List UInt8 → List UInt8 → List (List UInt8)
    | [], part => if part.isEmpty then [] else [part.reverse]
    | b :: bs, part => if b = 10 then (b :: part).reverse :: go bs [] else go bs (b :: part)

/-- Runs the lines and ends the loop. -/
def lines (r : Repl) : List (List UInt8) → Repl
  | [] => r.print farewell
  | l :: ls =>
    match Utf8.decode? l.toArray with
    | some text => (r.line (meant text)).lines ls
    | none => r.print notText

/-- Runs the loop on the whole of its input. -/
def session (config : Config) (w : World) (input : Array UInt8) : World :=
  ((start config w).lines (splitLines input.toList)).world

end Repl

end Zaban
