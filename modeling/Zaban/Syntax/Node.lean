import Zaban.Syntax.Operator

/-!
# Programs as trees

A **node** is an expression of the language: everything is an expression, also
a sequence, an assignment and a conditional. A program as a whole is a
`Node.program` node.

`Node.sameAs` compares trees, with numbers compared as numbers: a tree with a
not-a-number literal differs from itself, and the two zeros are the same.
-/

namespace Zaban

/-- An expression. -/
inductive Node where
  /-- Expressions evaluated one after another. -/
  | program (body : List Node)
  /-- Gives the name on the left the value on the right. -/
  | assignment (target value : Node)
  /-- An operator between two operands. -/
  | binary (op : BinaryOp) (left right : Node)
  /-- A choice between two expressions; without the second the choice may yield nothing. -/
  | condition (test yes : Node) (no : Option Node)
  /-- A function of named parameters. -/
  | lambda (params : List String) (body : Node)
  /-- A function applied to arguments. -/
  | call (callee : Node) (args : List Node)
  /-- A name. -/
  | var (name : String)
  | number (value : Float)
  | string (value : String)
  | boolean (value : Bool)
deriving Inhabited

namespace Node

mutual

/-- Are the trees equal, numbers being compared as numbers? -/
def sameAs : Node → Node → Bool
  | program xs, program ys => allSame xs ys
  | assignment t v, assignment t' v' => sameAs t t' && sameAs v v'
  | binary op l r, binary op' l' r' => op == op' && sameAs l l' && sameAs r r'
  | condition c y n, condition c' y' n' => sameAs c c' && sameAs y y' && optionSame n n'
  | lambda ps b, lambda ps' b' => ps == ps' && sameAs b b'
  | call f xs, call g ys => sameAs f g && allSame xs ys
  | var x, var y => x == y
  | number x, number y => x == y
  | string x, string y => x == y
  | boolean x, boolean y => x == y
  | _, _ => false

/-- Are the lists equal, tree by tree? -/
def allSame : List Node → List Node → Bool
  | [], [] => true
  | x :: xs, y :: ys => sameAs x y && allSame xs ys
  | _, _ => false

/-- Are both trees absent, or both present and equal? -/
def optionSame : Option Node → Option Node → Bool
  | none, none => true
  | some x, some y => sameAs x y
  | _, _ => false

end

end Node

end Zaban
