import Zaban.Host.Path

/-!
# Files

A **directory** as a value: files with their bytes, and directories, by the
places where they are. A **place** is reached from a base by a list of names;
the base is the directory at hand, one of those above it, or the root of all.
A directory exists if it is a base, if it is listed, or if something is listed
inside it.

Following a path step by step needs a directory at each step, also for the
marks "here" and "up" and for a slash at the end. Names and paths have a
greatest length, in bytes.
-/

namespace Zaban

/-- Why a file cannot be used. -/
inductive FileFault where
  | notFound
  | notDirectory
  | isDirectory
  /-- A name or the path is too long. -/
  | tooLong
  /-- The path holds the character that ends a path for the operating system. -/
  | nulInPath
  /-- The bytes are not text. -/
  | notText
deriving DecidableEq

/-- The wording of a fault. -/
def FileFault.message : FileFault → String
  | notFound => "No such file or directory (os error 2)"
  | notDirectory => "Not a directory (os error 20)"
  | isDirectory => "Is a directory (os error 21)"
  | tooLong => "File name too long (os error 36)"
  | nulInPath => "file name contained an unexpected NUL byte"
  | notText => "stream did not contain valid UTF-8"

-- ----------------------------------------------------------------------------
-- Places
-- ----------------------------------------------------------------------------

/-- Where the names that lead to a place start. -/
inductive Base where
  /-- At the directory `up` steps above the one at hand. -/
  | above (up : Nat)
  /-- At the root of all directories. -/
  | root
deriving DecidableEq

/-- The base one step up. There is nothing above the root. -/
def Base.parent : Base → Base
  | above up => above (up + 1)
  | root => root

/-- The directory at hand. -/
def Base.here : Base := .above 0

/-- What names lead to from a base. -/
structure Place where
  base : Base
  names : List String
deriving DecidableEq

namespace Place

/-- Where a path starts: at the root if it starts with a slash. -/
def origin (path : String) : Place :=
  ⟨if path.toList.head? = some '/' then .root else .here, []⟩

/-- Where one step of a path leads. -/
def advance (p : Place) (step : String) : Place :=
  if step = "" ∨ step = "." then p
  else if step = ".." then
    if p.names.isEmpty then ⟨p.base.parent, []⟩ else ⟨p.base, p.names.dropLast⟩
  else ⟨p.base, p.names ++ [step]⟩

/-- Where a path leads, if there are directories on the way. -/
def ofPath (path : String) : Place :=
  (Path.split path).foldl advance (origin path)

/-- Is the place `q` at `p` or inside it? -/
def holds (p q : Place) : Bool :=
  p.base == q.base && p.names.isPrefixOf q.names

end Place

-- ----------------------------------------------------------------------------
-- Directories
-- ----------------------------------------------------------------------------

/-- What is at a place. -/
inductive Entry where
  | file (bytes : Array UInt8)
  | directory

/-- What there is, by the places where it is. -/
structure Directory where
  entries : List (Place × Entry)

namespace Directory

/-- The longest name, in bytes. -/
def maxName : Nat := 255

/-- The longest path, in bytes. -/
def maxPath : Nat := 4095

/-- What is at the place `p`. -/
def entry? (d : Directory) (p : Place) : Option Entry :=
  if p.names.isEmpty then some .directory
  else
    match d.entries.lookup p with
    | some e => some e
    | none => if d.entries.any fun (q, _) => p.holds q then some .directory else none

/-- Checks that there is a directory at `p`. -/
def enter (d : Directory) (p : Place) : Except FileFault Unit :=
  match d.entry? p with
  | some .directory => .ok ()
  | some (.file _) => .error .notDirectory
  | none => .error .notFound

/-- Follows the steps of a path from `p`. -/
def follow (d : Directory) : (p : Place) → (steps : List String) → Except FileFault Place
  | p, [] => .ok p
  | p, step :: steps => do
    d.enter p
    if maxName < step.utf8ByteSize then throw .tooLong
    d.follow (p.advance step) steps

/-- The place that a path leads to. -/
def locate (d : Directory) (path : String) : Except FileFault Place :=
  if path.toList.contains '\x00' then .error .nulInPath
  else if path.isEmpty then .error .notFound
  else if maxPath < path.utf8ByteSize then .error .tooLong
  else d.follow (.origin path) (Path.split path)

/-- The bytes of the file that a path leads to. -/
def read (d : Directory) (path : String) : Except FileFault (Array UInt8) := do
  match d.entry? (← d.locate path) with
  | some (.file bytes) => return bytes
  | some .directory => throw .isDirectory
  | none => throw .notFound

/-- Puts an entry at `p`, instead of what is there. -/
def put (d : Directory) (p : Place) (e : Entry) : Directory :=
  ⟨d.entries.filter (·.1 != p) ++ [(p, e)]⟩

/-- Writes the file that a path leads to, which may be new. A write is one step: it replaces the
bytes as a whole or is refused, and one that fails midway, leaving a part of them, is not
modelled. -/
def write (d : Directory) (path : String) (bytes : Array UInt8) : Except FileFault Directory := do
  let p ← d.locate path
  match d.entry? p with
  | some .directory => throw .isDirectory
  | _ => return d.put p (.file bytes)

/-- The files with the extension `ext` in the directory at hand or below it, by the paths that lead
to them. -/
def filesWithExtension (d : Directory) (ext : String) : List (String × Array UInt8) :=
  d.entries.filterMap fun (p, e) =>
    let path := String.intercalate "/" p.names
    match e with
    | .file bytes =>
      if p.base = .here ∧ Path.extension? path = some ext then some (path, bytes) else none
    | .directory => none

/-- The directory without entries. -/
def empty : Directory := ⟨[]⟩

/-- Puts an entry where a path leads, with the directories on the way. -/
def hold (d : Directory) (path : String) (e : Entry) : Directory :=
  d.put (.ofPath path) e

/-- The directory that holds the given entries. -/
def ofEntries (entries : List (String × Entry)) : Directory :=
  entries.foldl (fun d (path, e) => d.hold path e) empty

end Directory

end Zaban
