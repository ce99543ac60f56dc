/-!
# Log records

A `LogRecord` is one thing to be logged: how severe it is, which part of the program it comes
from, a message and named fields. `LogRecord.line` is its line of text, in which `LogTarget.name`
stands for the part of the program. `LogRecord.fieldNames` are the names by which a filter can ask
for a record.
-/

namespace Reckon

/-- How severe a record is, or how detailed. -/
inductive Severity where
  | error
  | warn
  | info
  | debug
  | trace
  deriving DecidableEq, Repr

namespace Severity

/-- The place in the order from the severe to the detailed, counted from one. -/
def rank : Severity → Nat
  | .error => 1
  | .warn => 2
  | .info => 3
  | .debug => 4
  | .trace => 5

/-- The label in a line. -/
def label : Severity → String
  | .error => "ERROR"
  | .warn => "WARN"
  | .info => "INFO"
  | .debug => "DEBUG"
  | .trace => "TRACE"

end Severity

/-- The part of the program that a record comes from. -/
inductive LogTarget where
  /-- The run of a command. -/
  | command
  /-- The work on files. -/
  | files
  /-- The reading of tokens. -/
  | tokens
  /-- An evaluation as a whole. -/
  | evaluation
  /-- The operators between two operands. -/
  | binary
  /-- The signs. -/
  | unary
  deriving DecidableEq, Repr

/-- The name of a part of the program in a line, and for a filter. -/
def LogTarget.name : LogTarget → String
  | .command => "pyarith"
  | .files => "pyarith::pipeline"
  | .tokens => "pyarith::interpreter::lexer"
  | .evaluation => "pyarith::interpreter::parser::core"
  | .binary => "pyarith::interpreter::parser::binary"
  | .unary => "pyarith::interpreter::parser::unary"

/-- One thing to be logged. -/
structure LogRecord where
  severity : Severity
  target : LogTarget
  message : String
  fields : List (String × String)
  deriving DecidableEq, Repr

/-- The names of the fields of a record, of which the message is the first. -/
def LogRecord.fieldNames (r : LogRecord) : List String :=
  "message" :: r.fields.map Prod.fst

/-- The digits of a number to the base sixteen, at least two. -/
def hexCode (n : Nat) : List Char :=
  (if n < 16 then ['0'] else []) ++ Nat.toDigits 16 n

/-- What stands for a character in a message: the characters that steer a terminal are written by
their codes. -/
def messageChar (c : Char) : List Char :=
  let code := c.toNat
  if code = 0x07 || code = 0x08 || code = 0x0C || code = 0x1B || code = 0x7F then
    ['\\', 'x'] ++ hexCode code
  else if 0x80 ≤ code && code ≤ 0x9F then ['\\', 'u', '\x7b'] ++ hexCode code ++ ['\x7d']
  else [c]

/-- The line of a record: its label, where it comes from, its message and its fields. -/
def LogRecord.line (r : LogRecord) : String :=
  r.severity.label ++ " " ++ r.target.name ++ ": " ++
    String.ofList (r.message.toList.flatMap messageChar) ++
    String.join (r.fields.map fun (name, value) => " " ++ name ++ "=" ++ value)

end Reckon
