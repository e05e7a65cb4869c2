/-!
# Data in JSON

The values of the data format in which trees are stored. Whole numbers that
fit a machine word are kept apart from all other numbers, because a reader
may ask for one or the other. An object keeps its members in the order in
which they are written, repeated ones included.
-/

namespace Zaban

/-- A value of the data format. -/
inductive Json where
  | null
  | bool (value : Bool)
  /-- A whole number of at most 64 bits. -/
  | integer (value : Int)
  /-- Any other number. -/
  | real (value : Float)
  | string (value : String)
  | array (items : List Json)
  | object (members : List (String × Json))
deriving Inhabited

end Zaban
