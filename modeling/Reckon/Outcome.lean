import Reckon.Number.Rendering

/-!
# Outcomes

The outcome of an evaluation is a number or the first error met. An `EvalError` is the cause of
the failure with the position of the token that is blamed for it, and `renderOutcome` is the text
that is written to a result file.
-/

namespace Reckon

/-- Why an evaluation stopped. -/
inductive ErrorKind where
  /-- A character outside the language, or a numeral beyond the finite doubles. -/
  | invalidCharacter
  /-- Something else stands where a number or an opening parenthesis has to. -/
  | unexpectedToken
  /-- A parenthesis that is never closed; the opening one is blamed. -/
  | unmatchedParenthesis
  /-- The divisor is zero. -/
  | divisionByZero
  /-- A power is not a finite number. -/
  | invalidExponentiation
  /-- Something follows a complete expression. -/
  | trailingInput
  /-- Parentheses, signs and exponents are nested beyond the limit. -/
  | nestingTooDeep
  deriving DecidableEq, Repr

namespace ErrorKind

/-- What went wrong, in words. -/
def description : ErrorKind → String
  | .invalidCharacter => "invalid character"
  | .unexpectedToken => "expected a number or '('"
  | .unmatchedParenthesis => "unmatched parenthesis"
  | .divisionByZero => "division by zero"
  | .invalidExponentiation => "result of '**' is not a finite real number"
  | .trailingInput => "unexpected input after the expression"
  | .nestingTooDeep => "expression is nested too deeply"

/-- The name of the kind in a log line. -/
def name : ErrorKind → String
  | .invalidCharacter => "InvalidCharacter"
  | .unexpectedToken => "UnexpectedToken"
  | .unmatchedParenthesis => "UnmatchedParenthesis"
  | .divisionByZero => "DivisionByZero"
  | .invalidExponentiation => "InvalidExponentiation"
  | .trailingInput => "TrailingInput"
  | .nestingTooDeep => "NestingTooDeep"

end ErrorKind

/-- The first error of an evaluation, with the position that is blamed, counted from one. -/
structure EvalError where
  kind : ErrorKind
  position : Nat
  deriving DecidableEq, Repr

/-- The error in words. -/
def EvalError.message (e : EvalError) : String :=
  "Error at position " ++ toString e.position ++ ": " ++ e.kind.description ++ "."

/-- What evaluating a text comes to. -/
abbrev Outcome := Except EvalError Float

/-- The text of an outcome: the number, or the position of the error. -/
def renderOutcome : Outcome → String
  | .ok value => renderNumber value
  | .error e => "ERROR:" ++ toString e.position

end Reckon
