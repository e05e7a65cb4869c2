import Zaban.Syntax.Text

/-!
# Values

What an expression evaluates to: a number, a text, a truth value, a closure,
or a native function of the host. Functions have an **identity**, given to
them when they come into being: a closure each time a function expression is
evaluated, a native function when the host adds it. Two functions are equal
when their identities are, however alike they look.

`EvalError` lists why an evaluation ends without a value, and
`EvalError.message` is the one place with the wording.
-/

namespace Zaban

/-- A frame of the store, by its place in the store. -/
abbrev FrameId := Nat

/-- A function together with the frame in which it was evaluated. -/
structure Closure where
  /-- What sets this closure apart from every other. -/
  id : Nat
  params : List String
  body : Node
  /-- The frame in which the names of the body are looked up, behind the parameters. -/
  env : FrameId

/-- A function of the host. -/
structure Native where
  /-- What sets this function apart from every other, and where the host keeps it. -/
  id : Nat
  name : String

/-- What an expression evaluates to. -/
inductive Value where
  | number (value : Float)
  | string (value : String)
  | boolean (value : Bool)
  | closure (value : Closure)
  | native (value : Native)

/-- Numbers are written positionally from a millionth up to twenty-one digits. -/
def Layout.value : Layout where
  tie := .up
  positional e := -6 ≤ e && e < 21
  wholeEnd := ""
  signedZero := false
  nan := "NaN"
  infinity := "Infinity"

namespace Value

/-- The false value, which also stands where there is nothing to give. -/
def apuz : Value := .boolean false

/-- Only the truth value false is false; zero and the empty text are not. -/
def isFalse : Value → Bool
  | boolean b => !b
  | _ => false

/-- Can the value be called? -/
def isCallable : Value → Bool
  | closure _ | native _ => true
  | _ => false

/-- Equality in the language: values of different kinds differ, numbers are compared as numbers,
and functions by identity. -/
def equals : Value → Value → Bool
  | number x, number y => x == y
  | string x, string y => x == y
  | boolean x, boolean y => x == y
  | closure x, closure y => x.id == y.id
  | native x, native y => x.id == y.id
  | _, _ => false

/-- The text of a value. A text is its own text, and of a closure only the parameters are shown. -/
def text : Value → String
  | number x => Layout.value.write x
  | string s => s
  | boolean true => Keyword.poz.text
  | boolean false => Keyword.apuz.text
  | closure c => Keyword.banav.text ++ Node.inParens c.params
  | native n => "[native " ++ n.name ++ "]"

end Value

/-- Why an evaluation ends without a value. -/
inductive EvalError where
  /-- No frame in reach binds the name. -/
  | undefinedVariable (name : String)
  /-- Only names can be assigned to. -/
  | invalidTarget (target : Node)
  /-- The operator takes numbers. -/
  | typeMismatch (op : BinaryOp) (value : Value)
  | divisionByZero
  /-- Only functions can be called. -/
  | notCallable (value : Value)
  /-- More than `limit` calls were under way at once. -/
  | callDepthExceeded (limit : Nat)
  /-- The output did not take what was written. -/
  | output (reason : String)

/-- The wording of an error. -/
def EvalError.message : EvalError → String
  | undefinedVariable name => "Undefined variable " ++ name
  | invalidTarget target => "Cannot assign to " ++ target.text
  | typeMismatch op value =>
    "Expected number but got " ++ value.text ++ " as operand of " ++ op.symbol
  | divisionByZero => "Division by zero"
  | notCallable value => value.text ++ " is not a function"
  | callDepthExceeded limit => "Maximum call depth of " ++ toString limit ++ " exceeded"
  | output reason => "Could not write output: " ++ reason

end Zaban
