import Zaban.Eval.Semantics
import Zaban.Syntax.Grammar

/-!
# Running source text

A source text is parsed as a whole before any of it is evaluated. A run ends
with the value of the last expression, or with the error of the stage that
failed; a text that does not parse leaves the world as it was.
-/

namespace Zaban

/-- Why a run ends without a value. -/
inductive RunError where
  /-- The text is not a program. -/
  | parse (error : ParseError)
  /-- The program failed. -/
  | eval (error : EvalError)

/-- The stage at which a run failed. -/
inductive Stage where
  | reading
  | parsing
  | evaluating
deriving DecidableEq

namespace RunError

/-- The wording of an error. -/
def message : RunError → String
  | parse error => error.message
  | eval error => error.message

/-- The stage that an error belongs to. -/
def stage : RunError → Stage
  | parse (.lexical _) => .reading
  | parse _ => .parsing
  | eval _ => .evaluating

end RunError

/-- Evaluates a program in frame `env`. -/
def World.evaluate (w : World) (config : Config) (env : FrameId) (program : Node) :
    Except RunError Value × World :=
  let (result, w) := (Zaban.evaluate config env program).runIn w
  (result.mapError .eval, w)

/-- Calls a value. -/
def World.call (w : World) (config : Config) (f : Value) (args : List Value) :
    Except RunError Value × World :=
  let (result, w) := (callValue config f args).runIn w
  (result.mapError .eval, w)

/-- Parses a source text and evaluates it in frame `env`. -/
def World.run (w : World) (config : Config) (env : FrameId) (source : String) :
    Except RunError Value × World :=
  match parse source with
  | .error error => (.error (.parse error), w)
  | .ok program => w.evaluate config env program

end Zaban
