import Zaban.Eval.World

/-!
# Native functions

The two functions that every program finds bound in its root: `wan` writes a
line, and `time` measures a call. The other scripts are building blocks for
hosts: a constant, and three ways of calling an argument.
-/

namespace Zaban

namespace Script

/-- The first argument, or false if there is none. -/
def firstArg (args : List Value) : Value :=
  args.head?.getD .apuz

/-- Writes the texts of the arguments on one line, separated by spaces. -/
def wan : NativeBody := fun args =>
  .write (String.intercalate " " (args.map Value.text) ++ "\n") (.done (.ok .apuz))

/-- Calls the first argument without arguments and writes how long the call took, also when it
failed. Ends as the call did. -/
def time : NativeBody := fun args =>
  .clock fun started =>
    .call (firstArg args) [] fun result =>
      .clock fun ended =>
        .write ("time: " ++ toString (ended - started) ++ "ms\n") (.done result)

/-- Ends with the same value for all arguments. -/
def constant (v : Value) : NativeBody := fun _ =>
  .done (.ok v)

/-- Calls the first argument without arguments two times, and ends as the second call did; an error
of the first call ends it. -/
def twice : NativeBody := fun args =>
  .call (firstArg args) [] fun
    | .ok _ => .call (firstArg args) [] .done
    | .error e => .done (.error e)

/-- Calls the first argument with the others. -/
def apply : NativeBody := fun args =>
  .call (firstArg args) args.tail .done

/-- Calls the first argument without arguments; an error becomes its message. -/
def attempt : NativeBody := fun args =>
  .call (firstArg args) [] fun
    | .ok v => .done (.ok v)
    | .error e => .done (.ok (.string e.message))

end Script

/-- Binds the functions that every program finds. -/
def World.installStandard (w : World) (e : FrameId) : World :=
  (w.install e "wan" Script.wan).install e "time" Script.time

/-- Binds the functions that call their arguments. -/
def World.installCallers (w : World) (e : FrameId) : World :=
  ((w.install e "twice" Script.twice).install e "apply" Script.apply).install e "attempt"
    Script.attempt

end Zaban
