/-!
# Names of files

A path is names separated by slashes. Its **last name** is what remains in
front of trailing slashes and of trailing dots that stand for "here"; a path
that ends in no proper name has none. The **extension** is what follows the
last dot of the last name, unless that dot opens the name.
-/

namespace Zaban.Path

/-- Drops what follows the last name of a path. Works on the path in reverse. -/
def trimBack : List Char → List Char
  | '/' :: cs => trimBack cs
  | '.' :: '/' :: cs => trimBack cs
  | cs => cs

/-- The path up to and with its last name, in reverse. -/
def trimmed (path : String) : List Char :=
  trimBack path.toList.reverse

/-- The last name of a path, in reverse; none if the path ends in the top, in "here" or in "up". -/
def lastName? (path : String) : Option (List Char) :=
  let name := (trimmed path).takeWhile (· != '/')
  if name = [] ∨ name = ['.'] ∨ name = ['.', '.'] then none else some name

/-- The extension of a path. -/
def extension? (path : String) : Option String := do
  let name ← lastName? path
  let ext := name.takeWhile (· != '.')
  -- what stands in front of the last dot, that dot included
  match name.dropWhile (· != '.') with
  | _ :: _ :: _ => some (String.ofList ext.reverse)
  | _ => none

/-- The path without its extension. The dot before the extension stays. -/
def dropExtension (path : String) : String :=
  match extension? path with
  | some ext => String.ofList (path.toList.take (path.length - ext.length))
  | none => path

/-- Gives the last name of a path the extension `ext`, instead of one it may have. A path that ends
in no name stays as it is. -/
def setExtension (path ext : String) : String :=
  match lastName? path with
  | none => path
  | some _ =>
    let back := trimmed path
    let stem :=
      match extension? path with
      | some old => back.drop (old.length + 1)
      | none => back
    String.ofList stem.reverse ++ "." ++ ext

/-- The path with another extension in place of its own. The old one is taken off first, and what
is left need not end in a name any more: of a name of two dots and an extension "up" is left. -/
def withExtension (path ext : String) : String :=
  setExtension (dropExtension path) ext

/-- The names and marks between the slashes of a path. -/
def split (path : String) : List String :=
  go path.toList []
where
  go : List Char → List Char → List String
    | [], part => [String.ofList part.reverse]
    | c :: cs, part =>
      if c = '/' then String.ofList part.reverse :: go cs [] else go cs (c :: part)

end Zaban.Path
