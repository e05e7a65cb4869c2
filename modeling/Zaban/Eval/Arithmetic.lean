import Zaban.Eval.Value
import Zaban.Number.Remainder

/-!
# Operators on values

Arithmetic and comparison take numbers, and refuse the first operand that is
not one. Division and remainder look at their divisor only when both operands
are numbers. Equality takes any two values.
-/

namespace Zaban

namespace Value

/-- The number that an operand of `op` is. -/
def operand (op : BinaryOp) : Value → Except EvalError Float
  | number x => .ok x
  | v => .error (.typeMismatch op v)

/-- The number that a divisor is, which is not zero. -/
def divisor (op : BinaryOp) (v : Value) : Except EvalError Float := do
  let x ← v.operand op
  if x == 0 then .error .divisionByZero else return x

/-- Computes a number from two. -/
def arithmetic (op : BinaryOp) (f : Float → Float → Float) (left right : Value) :
    Except EvalError Value := do
  return .number (f (← left.operand op) (← right.operand op))

/-- Compares two numbers. -/
def comparison (op : BinaryOp) (f : Float → Float → Bool) (left right : Value) :
    Except EvalError Value := do
  return .boolean (f (← left.operand op) (← right.operand op))

/-- Divides two numbers, in the sense of `f`. -/
def division (op : BinaryOp) (f : Float → Float → Float) (left right : Value) :
    Except EvalError Value := do
  return .number (f (← left.operand op) (← right.divisor op))

end Value

/-- What an operator gives for two values. The logical operators choose between them. -/
def BinaryOp.apply (op : BinaryOp) (left right : Value) : Except EvalError Value :=
  match op with
  | .or => .ok (if left.isFalse then right else left)
  | .and => .ok (if left.isFalse then .apuz else right)
  | .less => Value.comparison op (fun x y => decide (x < y)) left right
  | .greater => Value.comparison op (fun x y => decide (x > y)) left right
  | .lessEqual => Value.comparison op (fun x y => decide (x ≤ y)) left right
  | .greaterEqual => Value.comparison op (fun x y => decide (x ≥ y)) left right
  | .equal => .ok (.boolean (left.equals right))
  | .notEqual => .ok (.boolean (!left.equals right))
  | .plus => Value.arithmetic op (· + ·) left right
  | .minus => Value.arithmetic op (· - ·) left right
  | .times => Value.arithmetic op (· * ·) left right
  | .divide => Value.division op (· / ·) left right
  | .modulo => Value.division op Binary.remainder left right

/-- The value of the operator as far as its left operand decides it: the logical operators skip the
right one. -/
def BinaryOp.shortcut? (op : BinaryOp) (left : Value) : Option Value :=
  match op with
  | .and => if left.isFalse then some .apuz else none
  | .or => if left.isFalse then none else some left
  | _ => none

end Zaban
