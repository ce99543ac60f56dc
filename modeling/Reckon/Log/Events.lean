import Reckon.Log.Record
import Reckon.Session

/-!
# Events as log records

`Event.record` says how what happens while a text is evaluated is logged, and `logOutcome` how an
outcome is written in a field.
-/

namespace Reckon

/-- A token in a field. -/
def logToken : Token → String
  | .number value => "Number(" ++ renderExactly value ++ ")"
  | token => token.kindName

/-- An outcome in a field. -/
def logOutcome : Outcome → String
  | .ok value => "Ok(" ++ renderExactly value ++ ")"
  | .error e =>
    "Err(EvalError \x7b kind: " ++ e.kind.name ++ ", position: " ++ toString e.position ++ " \x7d)"

/-- The record of an application. -/
def Application.record : Application → LogRecord
  | .binary op left right position =>
    ⟨.trace, .binary, "applying binary operator",
      [("op", op.symbol), ("left", renderExactly left), ("right", renderExactly right),
        ("position", toString position)]⟩
  | .unary op operand position =>
    ⟨.trace, .unary, "applying unary operator",
      [("op", op.symbol), ("value", renderExactly operand), ("position", toString position)]⟩

/-- The record of an event. -/
def Event.record : Event → LogRecord
  | .lexed t =>
    ⟨.trace, .tokens, "lexed token",
      [("token", logToken t.token), ("position", toString t.position)]⟩
  | .applied a => a.record
  | .finished value =>
    ⟨.debug, .evaluation, "evaluation finished",
      [("value", renderExactly value)]⟩
  | .failed e =>
    ⟨.debug, .evaluation, "evaluation failed",
      [("kind", e.kind.name), ("position", toString e.position)]⟩

end Reckon
