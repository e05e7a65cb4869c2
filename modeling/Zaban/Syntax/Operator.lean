/-!
# Operators

The operators that take a value on either side. Each has a symbol and a
**precedence**: of two neighbours in a chain, the one of higher precedence
takes the operand between them.
-/

namespace Zaban

/-- The operators that compute a value from two. -/
inductive BinaryOp where
  | or
  | and
  | less
  | greater
  | lessEqual
  | greaterEqual
  | equal
  | notEqual
  | plus
  | minus
  | times
  | divide
  | modulo
deriving DecidableEq

namespace BinaryOp

/-- All operators. -/
def all : List BinaryOp :=
  [or, and, less, greater, lessEqual, greaterEqual, equal, notEqual, plus, minus, times, divide,
   modulo]

/-- The spelling of an operator. -/
def symbol : BinaryOp → String
  | or => "||"
  | and => "&&"
  | less => "<"
  | greater => ">"
  | lessEqual => "<="
  | greaterEqual => ">="
  | equal => "=="
  | notEqual => "!="
  | plus => "+"
  | minus => "-"
  | times => "*"
  | divide => "/"
  | modulo => "%"

/-- The operator spelled `s`, if there is one. -/
def ofSymbol? (s : String) : Option BinaryOp :=
  all.find? (·.symbol == s)

/-- Every operator is the one its symbol stands for. -/
theorem ofSymbol?_symbol (op : BinaryOp) : ofSymbol? op.symbol = some op := by
  cases op <;> decide

/-- Logic binds weaker than comparison, comparison weaker than sums, sums weaker than products. -/
def precedence : BinaryOp → Nat
  | or => 2
  | and => 3
  | less | greater | lessEqual | greaterEqual | equal | notEqual => 7
  | plus | minus => 10
  | times | divide | modulo => 20

end BinaryOp

end Zaban
