import Reckon.Log.Pattern.Check
import Reckon.Log.Record
import Reckon.Text.Count
import Reckon.Text.Utf8

/-!
# Directives about the log

A `Directive` says up to which rank the records of a `LogScope` are logged. It is written as the
beginning of a target, as the name of a field within `[{` and `}]`, or as the one in front of the
other, with an equals sign and a level behind; a level alone is about all records. Without a level
a directive stands for the most detailed one. Brackets that hold more than the name of a field are
about spans of time. The program records none, so such a directive has no effect.

`LogScope.yieldsTo` orders the scopes that one record can have in common: the longer beginning
comes before the shorter one, then a field before none, then the later name of a field before the
earlier one. `Directive.parse` reads a directive, and a `DirectiveError` is what keeps a text from
being one.
-/

namespace Reckon

/-- The records that a directive is about. -/
structure LogScope where
  /-- How their targets begin. -/
  beginning : List Char
  /-- The field that they have, if one is named. -/
  field : Option String
  deriving DecidableEq, Repr

namespace LogScope

/-- Whether a scope is about a record. -/
def covers (s : LogScope) (r : LogRecord) : Bool :=
  s.beginning.isPrefixOf r.target.name.toList && s.field.all (r.fieldNames.contains ·)

/-- Whether a scope yields to another one where both cover a record. Each of two equal scopes
yields to the other. -/
def yieldsTo (s t : LogScope) : Bool :=
  if s.beginning.length = t.beginning.length then
    match s.field, t.field with
    | none, _ => true
    | some _, none => false
    | some f, some g => f ≤ g
  else s.beginning.length < t.beginning.length

end LogScope

/-- One directive of a filter. -/
inductive Directive where
  /-- Records of a scope are logged up to the rank. -/
  | records (scope : LogScope) (rank : Nat)
  /-- Something about spans of time. -/
  | spans
  deriving DecidableEq, Repr

/-- What keeps a text from being a directive. -/
inductive DirectiveError where
  /-- Its marks do not stand as they should. -/
  | malformed
  /-- What stands behind its equals sign is no level. -/
  | level
  /-- What is asked of the value of a field is no pattern. -/
  | pattern (cause : Pattern.PatternError)
  deriving DecidableEq, Repr

/-- The wording of an error. -/
def DirectiveError.message : DirectiveError → String
  | .malformed => "invalid filter directive"
  | .level =>
    "error parsing level filter: expected one of \"off\", \"error\", \"warn\", \"info\", " ++
      "\"debug\", \"trace\", or a number 0-5"
  | .pattern cause => "invalid field filter: " ++ cause.message

/-- The rank up to which a level logs; zero logs nothing. -/
def parseLevel? (text : List Char) : Option Nat :=
  match parseCount? (String.ofList text) with
  | some n => if n ≤ 5 then some n else none
  | none =>
    match String.ofList (text.map Char.toLower) with
    | "off" => some 0
    | "error" => some 1
    | "warn" => some 2
    | "info" => some 3
    | "debug" => some 4
    | "trace" => some 5
    | _ => none

namespace Directive

/-! ## Reading the parts -/

/-- The directive that a word without marks stands for: a level for all records, and else the
beginning of a target. -/
def ofWord (word : List Char) : Directive :=
  match parseLevel? word with
  | some rank => .records ⟨[], none⟩ rank
  | none => .records ⟨word, none⟩ Severity.trace.rank

/-- Reads the level behind an equals sign. -/
def parseRank : List Char → Except DirectiveError Nat
  | [] => .ok Severity.trace.rank
  | text =>
    match parseLevel? text with
    | some rank => .ok rank
    | none => .error .level

/-- Whether a text is a plus sign in front of a number. -/
def isSignedNumber : List Char → Bool
  | '+' :: rest =>
    (Numeral.scan? rest).any (·.2.isEmpty) ||
      ["inf", "infinity", "nan"].contains (String.ofList (rest.map Char.toLower))
  | _ => false

/-- Checks what is asked of the value of a field, which is a pattern. A number is one too, also with
a plus sign that would else repeat what stands in front of it. -/
def checkValue (text : List Char) : Except DirectiveError Unit :=
  if isSignedNumber text then .ok () else (Pattern.check text).mapError .pattern

/-- Reads what stands between braces: the name of a field, or nothing if a value is asked for. -/
def parseField (text : List Char) : Except DirectiveError (Option String) :=
  match text.dropWhile (· ≠ '=') with
  | [] => if text.isEmpty then .error .malformed else .ok (some (String.ofList text))
  | _ :: more => do
    checkValue (more.takeWhile (· ≠ '='))
    return none

/-- Reads what stands behind a closing bracket, which is nothing or an equals sign and a level. The
sign is looked for in `shape`, in front of which there are `start` bytes, and the level is what
`text` has behind the same place. -/
def parseEnd (text : List Char) (start : Nat) (shape : List Char) : Except DirectiveError Nat :=
  match shape with
  | [] => .ok Severity.trace.rank
  | '=' :: _ => parseRank (Utf8.dropBytes (start + 1) text)
  | _ => .error .malformed

/-- Reads what stands behind an opening bracket. The marks are looked for in `shape`, in front of
which there are `start` bytes, and what stands between them is what `text` has at the same
places. -/
def parseBrackets (beginning text : List Char) (start : Nat) (shape : List Char) :
    Except DirectiveError Directive := do
  let span := shape.takeWhile fun c => c ≠ ']' && c ≠ '\x7b'
  let start := start + Utf8.width span + 1
  match shape.drop span.length with
  | ']' :: shape =>
    let _ ← parseEnd text start shape
    return .spans
  | '\x7b' :: shape =>
    let inner := shape.takeWhile (· ≠ '\x7d')
    let finish := start + Utf8.width inner
    match shape.drop inner.length with
    | '\x7d' :: shape =>
      let field ← parseField (Utf8.slice start finish text)
      match shape with
      | ']' :: shape =>
        let rank ← parseEnd text (finish + 2) shape
        if span.isEmpty && field.isSome then return .records ⟨beginning, field⟩ rank
        else return .spans
      | _ => throw .malformed
    | _ => throw .malformed
  | _ => throw .malformed

/-- Whether a directive may begin with a character. -/
def mayBegin (c : Char) : Bool :=
  isAlphanumeric c || c = '-' || c = ':' || c = '_' || c = '['

/-! ## Reading a directive -/

/-- A text without the blanks at its ends. -/
def trim (text : List Char) : List Char :=
  ((text.dropWhile isWhiteSpace).reverse.dropWhile isWhiteSpace).reverse

/-- Reads a directive. The marks are looked for in the text without the blanks at its ends, and
what stands between them is cut at the same bytes out of the text with its blanks. So a blank at an
end is part of a word, and one in front shifts all that is cut out. -/
def parse (text : List Char) : Except DirectiveError Directive := do
  let shape := trim text
  unless shape.head?.any mayBegin do throw .malformed
  let word := shape.takeWhile fun c => c ≠ '=' && c ≠ '['
  let finish := Utf8.width word
  let beginning := Utf8.takeBytes finish text
  match shape.drop word.length with
  | [] => return ofWord text
  | '=' :: _ => return .records ⟨beginning, none⟩ (← parseRank (Utf8.dropBytes (finish + 1) text))
  | _ :: shape => parseBrackets beginning text (finish + 1) shape

end Directive

end Reckon
