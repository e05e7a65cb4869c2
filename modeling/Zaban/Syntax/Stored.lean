import Zaban.Json.Printer
import Zaban.Json.Reader
import Zaban.Syntax.Node

/-!
# Storing programs

A tree is stored as JSON: every node is an object whose member `type` names
its **form** and whose other members are the fields of the form, in a fixed
order. `Node.toJson` writes it.

The reader accepts more spellings than the writer produces:

* the members of an object in any order, with members that are no fields of
  the form in between;
* an array of the form and its fields in their order, in place of an object;
* inside another node, the position of the form in `Form.all` in place of its
  name;
* an operator as an object with the operator as its only key, and nothing as
  the value of that key;
* `null` for a branch that is absent.

It does not accept a repeated field, a repeated form, a missing field, or a
field of the wrong kind: the text has the wrong shape. Shapes are looked at
when the whole value has been read, with one exception: the form of the
outermost node is looked at where it stands, before the text behind it is
read. Text behind the value is looked at last.
-/

namespace Zaban

-- ----------------------------------------------------------------------------
-- Forms and fields
-- ----------------------------------------------------------------------------

/-- The kinds of nodes. -/
inductive Form where
  | program
  | assignment
  | binary
  | condition
  | lambda
  | call
  | var
  | number
  | string
  | bool
deriving DecidableEq

namespace Form

/-- All forms, in the order in which they are numbered. -/
def all : List Form :=
  [program, assignment, binary, condition, lambda, call, var, number, string, bool]

/-- The stored name of a form. -/
def name : Form → String
  | program => "program"
  | assignment => "assignment"
  | binary => "binary"
  | condition => "condition"
  | lambda => "lambda"
  | call => "call"
  | var => "var"
  | number => "number"
  | string => "string"
  | bool => "bool"

/-- The form of the given name. -/
def ofName? (s : String) : Option Form :=
  all.find? (·.name == s)

/-- Every form is the one its name stands for. -/
theorem ofName?_name (f : Form) : ofName? f.name = some f := by
  cases f <;> decide

/-- The fields of a form, in their order. -/
def fields : Form → List String
  | program => ["program"]
  | assignment => ["left", "right"]
  | binary => ["operator", "left", "right"]
  | condition => ["cond", "then", "else"]
  | lambda => ["vars", "body"]
  | call => ["func", "args"]
  | var | number | string | bool => ["value"]

/-- The form that a stored value names, inside another node: by its name or by its position. -/
def ofJson? : Json → Option Form
  | .string s => ofName? s
  | .integer (.ofNat n) => all[n]?
  | _ => none

end Form

/-- The key of the member that names the form. -/
def formKey : String := "type"

-- ----------------------------------------------------------------------------
-- Writing
-- ----------------------------------------------------------------------------

/-- An object of the given form. -/
def Form.object (form : Form) (members : List (String × Json)) : Json :=
  .object ((formKey, .string form.name) :: members)

/-- A number as a stored value; one that is not finite cannot be stored. -/
def Json.ofFloat (x : Float) : Json :=
  match Binary.ofFloat x with
  | .finite .. => .real x
  | _ => .null

namespace Node

mutual

/-- The stored form of a tree. -/
def toJson : Node → Json
  | program body => Form.program.object [("program", .array (toJsons body))]
  | assignment target value =>
    Form.assignment.object [("left", toJson target), ("right", toJson value)]
  | binary op left right =>
    Form.binary.object
      [("operator", .string op.symbol), ("left", toJson left), ("right", toJson right)]
  | condition test yes no =>
    Form.condition.object (("cond", toJson test) :: ("then", toJson yes) :: elseMember no)
  | lambda params body =>
    Form.lambda.object [("vars", .array (params.map .string)), ("body", toJson body)]
  | call callee args =>
    Form.call.object [("func", toJson callee), ("args", .array (toJsons args))]
  | var name => Form.var.object [("value", .string name)]
  | number value => Form.number.object [("value", .ofFloat value)]
  | string value => Form.string.object [("value", .string value)]
  | boolean value => Form.bool.object [("value", .bool value)]

/-- The stored forms of trees. -/
def toJsons : List Node → List Json
  | [] => []
  | x :: xs => toJson x :: toJsons xs

/-- The member for the second branch of a conditional, which is left out with the branch. -/
def elseMember : Option Node → List (String × Json)
  | none => []
  | some x => [("else", toJson x)]

end

/-- The text in which a tree is stored. -/
def storedText (n : Node) : String :=
  n.toJson.pretty

end Node

-- ----------------------------------------------------------------------------
-- Reading the parts of a node
-- ----------------------------------------------------------------------------

/-- A stored value together with what it is as a node and as a list of nodes. -/
structure Part where
  json : Json
  node? : Option Node
  nodes? : Option (List Node)

namespace Part

/-- The text that a value is. -/
def string? (p : Part) : Option String :=
  match p.json with
  | .string s => some s
  | _ => none

/-- The truth value that a value is. -/
def bool? (p : Part) : Option Bool :=
  match p.json with
  | .bool b => some b
  | _ => none

/-- The number that a value is. -/
def number? (p : Part) : Option Float :=
  match p.json with
  | .integer n => some (Float.ofInt n)
  | .real x => some x
  | _ => none

/-- The texts that the items of a value are. -/
def strings? (p : Part) : Option (List String) :=
  match p.json with
  | .array items => items.mapM fun
    | .string s => some s
    | _ => none
  | _ => none

/-- The operator that a value is. -/
def operator? (p : Part) : Option BinaryOp :=
  match p.json with
  | .string s => BinaryOp.ofSymbol? s
  | .object [(key, .null)] | .object [(key, .object [])] => BinaryOp.ofSymbol? key
  | _ => none

/-- The node that an optional field holds; the field may be missing or hold `null`. -/
def optional? : Option Part → Option (Option Node)
  | none => some none
  | some p =>
    match p.json with
    | .null => some none
    | _ => p.node?.map some

end Part

/-- The node of a form whose fields hold the given parts. -/
def Form.node? (form : Form) (field : String → Option Part) : Option Node :=
  match form with
  | .program => do return .program (← (← field "program").nodes?)
  | .assignment => do
    return .assignment (← (← field "left").node?) (← (← field "right").node?)
  | .binary => do
    return .binary (← (← field "operator").operator?) (← (← field "left").node?)
      (← (← field "right").node?)
  | .condition => do
    return .condition (← (← field "cond").node?) (← (← field "then").node?)
      (← Part.optional? (field "else"))
  | .lambda => do return .lambda (← (← field "vars").strings?) (← (← field "body").node?)
  | .call => do return .call (← (← field "func").node?) (← (← field "args").nodes?)
  | .var => do return .var (← (← field "value").string?)
  | .number => do return .number (← (← field "value").number?)
  | .string => do return .string (← (← field "value").string?)
  | .bool => do return .boolean (← (← field "value").bool?)

/-- The node of a form that is spelled as an object with the given members besides the form. No
field is given twice. -/
def Form.ofMembers? (form : Form) (members : List (String × Part)) : Option Node :=
  let keys := members.map Prod.fst
  if form.fields.all fun f => keys.count f ≤ 1 then form.node? (fun f => List.lookup f members)
  else none

/-- The node of a form that is spelled as an array with the given items behind the form. -/
def Form.ofItems? (form : Form) (items : List Part) : Option Node :=
  if items.length ≤ form.fields.length then
    form.node? (fun f => List.lookup f (form.fields.zip items))
  else none

/-- The node that is spelled as an object with the given members. The form is given once. -/
def Node.ofMembers? (members : List (String × Part)) : Option Node :=
  match members.partition (·.1 == formKey) with
  | ([(_, tag)], rest) => do (← Form.ofJson? tag.json).ofMembers? rest
  | _ => none

/-- The node that is spelled as an array with the given items. -/
def Node.ofItems? : List Part → Option Node
  | [] => none
  | tag :: rest => do (← Form.ofJson? tag.json).ofItems? rest

mutual

/-- A value with what it is, which for arrays and objects follows from what their parts are. -/
def Part.ofJson : Json → Part
  | .array items =>
    let parts := Part.ofItems items
    ⟨.array items, Node.ofItems? parts, parts.mapM Part.node?⟩
  | .object members =>
    let parts := Part.ofMembers members
    ⟨.object members, Node.ofMembers? parts, none⟩
  | j => ⟨j, none, none⟩

/-- The items of an array with what they are. -/
def Part.ofItems : List Json → List Part
  | [] => []
  | x :: xs => Part.ofJson x :: Part.ofItems xs

/-- The members of an object with what they are. -/
def Part.ofMembers : List (String × Json) → List (String × Part)
  | [] => []
  | (key, x) :: rest => (key, Part.ofJson x) :: Part.ofMembers rest

end

-- ----------------------------------------------------------------------------
-- Reading a text
-- ----------------------------------------------------------------------------

namespace Json

/-- Reads the form of the outermost node, which must be a name. An array or object in its place is
of the wrong shape whatever it holds. -/
def readForm (fuel : Nat) (cs : List Char) : Reading (Form × List Char) :=
  match skipGap cs with
  | [] => .error .truncated
  | c :: cs =>
    if c = '[' ∨ c = '{' then .error .misshapen
    else do
      let (x, cs) ← readScalar fuel c cs
      match x with
      | .string s =>
        match Form.ofName? s with
        | some form => return (form, cs)
        | none => .error .misshapen
      | _ => .error .misshapen

/-- Reads the members of the outermost object, of which one names the form. Gives the form, if it
was among them, and the other members. -/
def readNodeMembers : (fuel : Nat) → (form : Option Form) → (first : Bool) → List Char →
    Reading ((Option Form × List (String × Json)) × List Char)
  | 0, _, _, _ => .error .truncated
  | fuel + 1, form, first, cs => do
    match ← readSeparator '}' first cs with
    | (false, cs) => return ((form, []), cs)
    | (true, cs) =>
      let (key, cs) ← readKey fuel cs
      if key = formKey then
        if form.isSome then .error .misshapen
        else
          let cs ← readColon cs
          let (form, cs) ← readForm fuel cs
          readNodeMembers fuel (some form) false cs
      else
        let cs ← readColon cs
        let (x, cs) ← readValue fuel (nestingLimit - 1) cs
        let ((form, rest), cs) ← readNodeMembers fuel form false cs
        return ((form, (key, x) :: rest), cs)

/-- Turns the absence of a node into a defect of the shape. -/
def shaped (node? : Option Node) : Reading Node :=
  match node? with
  | some n => .ok n
  | none => .error .misshapen

/-- Reads the outermost node. -/
def readNode (fuel : Nat) (cs : List Char) : Reading (Node × List Char) :=
  match skipGap cs with
  | [] => .error .truncated
  | c :: cs =>
    if c = '{' then do
      let ((form, members), cs) ← readNodeMembers fuel none true cs
      let node ← shaped (form.bind (·.ofMembers? (Part.ofMembers members)))
      return (node, cs)
    else if c = '[' then do
      match ← readSeparator ']' true cs with
      | (false, _) => .error .misshapen
      | (true, cs) =>
        let (form, cs) ← readForm fuel cs
        let (items, cs) ← readItems fuel (nestingLimit - 1) false cs
        let node ← shaped (form.ofItems? (Part.ofItems items))
        return (node, cs)
    else do
      let _ ← readScalar fuel c cs
      .error .misshapen

end Json

/-- The tree that a text stores. -/
def Node.ofStored (text : String) : Except Json.Defect Node := do
  let cs := text.toList
  let (node, cs) ← Json.readNode (Json.readFuel cs.length) cs
  if (Json.skipGap cs).isEmpty then return node else .error .malformed

end Zaban
