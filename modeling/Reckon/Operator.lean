/-!
# Operators and grammar levels

The operators of the expression language and the five levels of its grammar:

* an expression is terms joined by `+` and `-`,
* a term is factors joined by `*` and `/`,
* a factor is a power behind any number of signs,
* a power is a primary, or a primary raised by `**` to a power,
* a primary is a number or an expression in parentheses.

`BinaryOp.level` is the level at which an operator joins its operands and `BinaryOp.rightLevel` the
level of the operand behind it; `UnaryOp.level` and `UnaryOp.operandLevel` say the same of signs.
-/

namespace Reckon

/-- The levels of the grammar. -/
inductive Level where
  | primary
  | power
  | factor
  | term
  | expression
  deriving DecidableEq, Repr

/-- How loosely a level binds; each level includes those of lower rank. -/
def Level.rank : Level → Nat
  | .primary => 0
  | .power => 1
  | .factor => 2
  | .term => 3
  | .expression => 4

instance : LE Level where
  le a b := a.rank ≤ b.rank

instance (a b : Level) : Decidable (a ≤ b) :=
  inferInstanceAs (Decidable (a.rank ≤ b.rank))

/-- The operators between two operands. -/
inductive BinaryOp where
  | add
  | sub
  | mul
  | div
  | pow
  deriving DecidableEq, Repr

namespace BinaryOp

/-- The text of the operator. -/
def symbol : BinaryOp → String
  | .add => "+"
  | .sub => "-"
  | .mul => "*"
  | .div => "/"
  | .pow => "**"

/-- The level of what the operator and its operands make up. -/
def level : BinaryOp → Level
  | .add | .sub => .expression
  | .mul | .div => .term
  | .pow => .power

/-- The level of the right operand: sums and products group to the left, powers to the right. -/
def rightLevel : BinaryOp → Level
  | .add | .sub => .term
  | .mul | .div => .factor
  | .pow => .power

end BinaryOp

/-- The signs in front of an operand. -/
inductive UnaryOp where
  | plus
  | negate
  deriving DecidableEq, Repr

namespace UnaryOp

/-- The text of the sign. -/
def symbol : UnaryOp → String
  | .plus => "+"
  | .negate => "-"

/-- The level of what a sign and its operand make up. -/
def level : UnaryOp → Level
  | _ => .factor

/-- A sign applies to a factor, so it covers the whole power behind it. -/
def operandLevel : UnaryOp → Level
  | _ => .factor

end UnaryOp

end Reckon
