import Reckon.Operator

/-!
# Tokens

The tokens of the expression language and what each can stand for in an expression. A `Placed`
token knows the position of its first character, counted from one.
-/

namespace Reckon

/-- A token. -/
inductive Token where
  | number (value : Float)
  | plus
  | minus
  | star
  | slash
  | power
  | opening
  | closing
  /-- The end of the text. -/
  | finish
  /-- A character outside the language, or a numeral beyond the finite doubles. -/
  | invalid
  deriving DecidableEq

namespace Token

/-- The name of the kind of a token. -/
def kindName : Token → String
  | .number _ => "Number"
  | .plus => "Plus"
  | .minus => "Minus"
  | .star => "Star"
  | .slash => "Slash"
  | .power => "Pow"
  | .opening => "LParen"
  | .closing => "RParen"
  | .finish => "End"
  | .invalid => "Invalid"

/-- The operator that a token is between two operands. -/
def binaryOp? : Token → Option BinaryOp
  | .plus => some .add
  | .minus => some .sub
  | .star => some .mul
  | .slash => some .div
  | .power => some .pow
  | _ => none

/-- The sign that a token is in front of an operand. -/
def unaryOp? : Token → Option UnaryOp
  | .plus => some .plus
  | .minus => some .negate
  | _ => none

end Token

/-- A token and the position of its first character. -/
structure Placed where
  token : Token
  position : Nat
  deriving DecidableEq

end Reckon
