import Reckon.Operator
import Reckon.Outcome

/-!
# Arithmetic on doubles

Sums, differences and products never fail; they may be infinite or not a number. A quotient fails
on a zero divisor and a power fails unless it is finite. An `Application` is one operator with its
operands, and `Application.outcome` puts the operator's position to a failure.
-/

namespace Reckon

/-- The quotient, unless the divisor is zero; a negative zero is one. -/
def divide (left right : Float) : Except ErrorKind Float :=
  if right == 0 then .error .divisionByZero else .ok (left / right)

/-- The power, if it is a finite number. -/
def raise (base exponent : Float) : Except ErrorKind Float :=
  let power := Float.pow base exponent
  if power.isFinite then .ok power else .error .invalidExponentiation

/-- The operator on its two operands. -/
def BinaryOp.apply : BinaryOp → Float → Float → Except ErrorKind Float
  | .add, left, right => .ok (left + right)
  | .sub, left, right => .ok (left - right)
  | .mul, left, right => .ok (left * right)
  | .div, left, right => divide left right
  | .pow, left, right => raise left right

/-- The sign on its operand. -/
def UnaryOp.apply : UnaryOp → Float → Float
  | .plus, operand => operand
  | .negate, operand => -operand

/-- One operator of a text with the values of its operands and its own position. -/
inductive Application where
  | binary (op : BinaryOp) (left right : Float) (position : Nat)
  | unary (op : UnaryOp) (operand : Float) (position : Nat)

/-- The value of an application; a failure is blamed on the operator. -/
def Application.outcome : Application → Outcome
  | .binary op left right position => (op.apply left right).mapError (⟨·, position⟩)
  | .unary op operand _ => .ok (op.apply operand)

end Reckon
