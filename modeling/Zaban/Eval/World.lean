import Zaban.Eval.Store

/-!
# What an evaluation can see and change

The **world** of an evaluation holds the frames, the next unused closure
identity, the native functions of the host, the output and the clock. An
evaluation is a function of the world: it ends with a value or an error, and
in either case with the world as it then is, so what was bound or written
before an error stays.

The **sink** collects the bytes that are written. It may have a quota of bytes
in all: a write beyond it is cut off where the quota is used up, and refused.

The clock is a sequence of readings that the host supplies in advance, so an
evaluation is a function also of the times it measures.

A native function is given by the **script** that it follows once it has its
arguments: it may call values, write text and read the clock, and ends with a
value or an error. The evaluator runs scripts; a script cannot reach anything
else.
-/

namespace Zaban

-- ----------------------------------------------------------------------------
-- Output
-- ----------------------------------------------------------------------------

/-- How many bytes a sink takes in all, and what it says to a write beyond them. -/
structure Quota where
  bytes : Nat
  refusal : String

/-- The bytes written so far, and how many may be. -/
structure Sink where
  written : Array UInt8
  quota : Option Quota

namespace Sink

/-- The empty sink. -/
def ofQuota (quota : Option Quota) : Sink :=
  ⟨#[], quota⟩

/-- Writes a text, as far as the quota allows. Gives the refusal if it does not allow all of it. -/
def write (s : Sink) (text : String) : Option String × Sink :=
  let bytes := text.toUTF8.data
  match s.quota with
  | none => (none, { s with written := s.written ++ bytes })
  | some q =>
    let room := q.bytes - s.written.size
    (if bytes.size ≤ room then none else some q.refusal,
      { s with written := s.written ++ bytes.take room })

end Sink

-- ----------------------------------------------------------------------------
-- Native functions
-- ----------------------------------------------------------------------------

/-- What a native function does with its arguments. -/
inductive Script where
  /-- Ends with a value or an error. -/
  | done (result : Except EvalError Value)
  /-- Calls a value, and goes on with what the call ends with. -/
  | call (function : Value) (args : List Value) (next : Except EvalError Value → Script)
  /-- Writes a text; a refused write ends the script with that error. -/
  | write (text : String) (next : Script)
  /-- Reads the clock. -/
  | clock (next : Nat → Script)

/-- A native function, as a script for every list of arguments. -/
abbrev NativeBody := List Value → Script

-- ----------------------------------------------------------------------------
-- The world
-- ----------------------------------------------------------------------------

/-- What an evaluation can see and change. -/
structure World where
  store : Store
  /-- The identity of the next closure. -/
  nextClosure : Nat
  /-- The native functions, by their identities. -/
  natives : Array NativeBody
  sink : Sink
  /-- The readings of the clock in milliseconds, by their number. -/
  clock : Nat → Nat
  /-- How many readings were taken. -/
  ticks : Nat

namespace World

/-- A world without frames and native functions. -/
def empty (sink : Sink) (clock : Nat → Nat) : World where
  store := .empty
  nextClosure := 0
  natives := #[]
  sink := sink
  clock := clock
  ticks := 0

/-- Adds a frame with the given bindings and outer frame. -/
def addFrame (w : World) (f : Frame) : FrameId × World :=
  (w.store.next, { w with store := w.store.add f })

/-- Adds a root without bindings. -/
def addRoot (w : World) : FrameId × World :=
  w.addFrame ⟨[], none⟩

/-- Adds a frame without bindings around which `outer` lies. -/
def enclose (w : World) (outer : FrameId) : FrameId × World :=
  w.addFrame ⟨[], some outer⟩

/-- Binds a name in frame `e`. -/
def define (w : World) (e : FrameId) (name : String) (value : Value) : World :=
  { w with store := w.store.define e name value }

/-- Assigns to a name in frame `e`. A name that no frame in reach binds can be assigned to only in a
root. -/
def assign (w : World) (e : FrameId) (name : String) (value : Value) :
    Except EvalError Value × World :=
  match w.store.target? e name with
  | some target => (.ok value, w.define target name value)
  | none => (.error (.undefinedVariable name), w)

/-- Adds a native function and gives it as a value. -/
def addNative (w : World) (name : String) (body : NativeBody) : Value × World :=
  (.native ⟨w.natives.size, name⟩, { w with natives := w.natives.push body })

/-- Adds a native function and binds its name in frame `e`. -/
def install (w : World) (e : FrameId) (name : String) (body : NativeBody) : World :=
  let (value, w) := w.addNative name body
  w.define e name value

/-- Gives a function expression evaluated in frame `e` an identity. -/
def close (w : World) (params : List String) (body : Node) (e : FrameId) : Value × World :=
  (.closure ⟨w.nextClosure, params, body, e⟩, { w with nextClosure := w.nextClosure + 1 })

/-- Writes to the output. -/
def write (w : World) (text : String) : Except EvalError Unit × World :=
  let (refusal, sink) := w.sink.write text
  let w := { w with sink }
  match refusal with
  | none => (.ok (), w)
  | some reason => (.error (.output reason), w)

/-- Reads the clock. -/
def readClock (w : World) : Nat × World :=
  (w.clock w.ticks, { w with ticks := w.ticks + 1 })

end World

end Zaban
