import Zaban.Eval.Value

/-!
# Frames

Names are bound in **frames**. A frame may have an outer frame, in which names
that it does not bind itself are looked up; a frame without one is a **root**.
The store holds all frames there are, in the order in which they came into
being, and a frame is named by its place in it. The outer frame of a frame is
older than the frame, so a walk outward from frame `e` visits at most `e + 1`
frames.

There are two ways to change a binding. `Store.define` binds a name in a
given frame. `Store.target?` finds the frame that an assignment changes: the
nearest frame on the walk outward that binds the name, or, for a name that no
frame in reach binds, the frame itself if it is a root.
-/

namespace Zaban

/-- Bindings of names, and the frame around them. -/
structure Frame where
  bindings : List (String × Value)
  outer : Option FrameId

namespace Frame

/-- The value of a name that the frame itself binds. -/
def get? (f : Frame) (name : String) : Option Value :=
  f.bindings.lookup name

/-- Does the frame itself bind the name? -/
def binds (f : Frame) (name : String) : Bool :=
  (f.get? name).isSome

/-- Binds a name in a list of bindings, in the place of an earlier binding of it. -/
def bind (name : String) (value : Value) : List (String × Value) → List (String × Value)
  | [] => [(name, value)]
  | (other, v) :: rest =>
    if name == other then (name, value) :: rest else (other, v) :: bind name value rest

/-- Binds a name in the frame. -/
def define (f : Frame) (name : String) (value : Value) : Frame :=
  { f with bindings := bind name value f.bindings }

/-- The names that the frame itself binds, in ascending order. -/
def names (f : Frame) : List String :=
  (f.bindings.map Prod.fst).mergeSort fun a b => decide (a ≤ b)

end Frame

/-- All frames, in the order in which they came into being. -/
structure Store where
  frames : Array Frame

namespace Store

/-- The store without frames. -/
def empty : Store := ⟨#[]⟩

/-- The frame that the next one added will be. -/
def next (s : Store) : FrameId :=
  s.frames.size

/-- The frame `e`. -/
def frame? (s : Store) (e : FrameId) : Option Frame :=
  s.frames[e]?

/-- Adds a frame. -/
def add (s : Store) (f : Frame) : Store :=
  ⟨s.frames.push f⟩

/-- The frame around `e`. -/
def outer? (s : Store) (e : FrameId) : Option FrameId :=
  (s.frame? e).bind Frame.outer

/-- Is there no frame around `e`? -/
def isRoot (s : Store) (e : FrameId) : Bool :=
  (s.outer? e).isNone

/-- The nearest of the first `fuel` frames on the walk outward from `e` that binds the name. -/
def binderFrom (s : Store) (name : String) : (fuel : Nat) → (e : FrameId) → Option FrameId
  | 0, _ => none
  | fuel + 1, e =>
    match s.frame? e with
    | none => none
    | some f =>
      if f.binds name then some e
      else
        match f.outer with
        | none => none
        | some o => binderFrom s name fuel o

/-- The nearest frame on the walk outward from `e` that binds the name. -/
def binder? (s : Store) (e : FrameId) (name : String) : Option FrameId :=
  s.binderFrom name (e + 1) e

/-- The value that a name has in frame `e`. -/
def get? (s : Store) (e : FrameId) (name : String) : Option Value :=
  (s.binder? e name).bind fun b => (s.frame? b).bind (·.get? name)

/-- Binds a name in frame `e`. -/
def define (s : Store) (e : FrameId) (name : String) (value : Value) : Store :=
  ⟨s.frames.modify e (·.define name value)⟩

/-- The frame whose binding an assignment to the name in frame `e` changes or adds. -/
def target? (s : Store) (e : FrameId) (name : String) : Option FrameId :=
  (s.binder? e name).or (if s.isRoot e then some e else none)

/-- The names that frame `e` itself binds, in ascending order. -/
def names (s : Store) (e : FrameId) : List String :=
  ((s.frame? e).map Frame.names).getD []

/-- Describes frame `e`: its names, and whether it is a root. -/
def describe (s : Store) (e : FrameId) : String :=
  "Environment \x7b names: [" ++ String.intercalate ", " ((s.names e).map Text.quoted)
    ++ "], is_root: " ++ (if s.isRoot e then "true" else "false") ++ " \x7d"

end Store

end Zaban
