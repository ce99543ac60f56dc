import Reckon.Evaluation
import Reckon.Lexer

/-!
# Evaluating a text

A `Session` reads a text for evaluation, with one token of look-ahead. `Session.run` lets an
evaluation react to token after token; the next token is read as soon as one is taken, and what
happens is kept as a list of `Event`s. `Session.parse` evaluates one expression, term, factor,
power or primary from the look-ahead on and leaves the session behind it, also when it fails.
`Session.finish` evaluates all that is left, and `evaluate` a whole text.
-/

namespace Reckon

/-- Something that happens while a text is evaluated. -/
inductive Event where
  /-- A token was read. -/
  | lexed (t : Placed)
  /-- An operator is applied. -/
  | applied (a : Application)
  /-- The whole text has a value. -/
  | finished (value : Float)
  /-- The text has an error. -/
  | failed (error : EvalError)

/-- A text that is read for evaluation: the token in front and the place behind it. -/
structure Session where
  lookahead : Placed
  cursor : Cursor
  maxDepth : Nat

/-- What a call on a session comes to. -/
structure Run where
  outcome : Outcome
  events : List Event
  session : Session

namespace Session

/-- The default limit of nested parentheses, signs and exponents. -/
def defaultMaxDepth : Nat := 200

/-- A session at the start of a text; the first token is read at once. -/
def start (source : String) (maxDepth : Nat) : Session :=
  let (t, cursor) := (Cursor.start source.toList).next
  ⟨t, cursor, maxDepth⟩

/-- Takes the look-ahead and reads the next token. -/
def advance (s : Session) : Session :=
  let (t, cursor) := s.cursor.next
  ⟨t, cursor, s.maxDepth⟩

/-- A bound of the tokens that are left. -/
def size (s : Session) : Nat :=
  if s.lookahead.token = .finish then 0 else s.cursor.rest.length + 1

/-- Taking a token that is not the end makes a session smaller. -/
theorem advance_size (s : Session) (h : s.lookahead.token ≠ .finish) :
    s.advance.size < s.size := by
  have hnext : s.advance.cursor.rest.length < s.cursor.rest.length ∨
      s.advance.lookahead.token = .finish ∧ s.advance.cursor.rest = [] := s.cursor.next_length
  unfold size
  rw [if_neg h]
  split
  · omega
  · next hopen =>
    rcases hnext with hlt | hend
    · omega
    · exact absurd hend.1 hopen

/-- Lets an evaluation react to the tokens of a session until it comes to its outcome. -/
def run (e : Evaluation) (s : Session) : Run :=
  match _h : e.react s.lookahead with
  | ⟨applied, .proceed next⟩ =>
    let r := run next s.advance
    { r with events := applied.map .applied ++ .lexed s.advance.lookahead :: r.events }
  | ⟨applied, .refuse error⟩ =>
    ⟨.error error, applied.map .applied ++ [.lexed s.advance.lookahead], s.advance⟩
  | ⟨applied, .stop outcome⟩ => ⟨outcome, applied.map .applied, s⟩
termination_by s.size
decreasing_by
  apply advance_size
  intro hfinish
  obtain ⟨outcome, hstop⟩ := e.react_finish s.lookahead.position
  rw [← hfinish, _h] at hstop
  cases hstop

/-- Evaluates what stands at the look-ahead as far as it belongs to the given level. -/
def parse (s : Session) (goal : Level) : Run :=
  s.run (Evaluation.start goal s.maxDepth)

/-- A value is that of the whole text only if the look-ahead is the end. -/
def checkEnd (t : Placed) (value : Float) : Outcome :=
  match t.token with
  | .finish => .ok value
  | .invalid => .error ⟨.invalidCharacter, t.position⟩
  | _ => .error ⟨.trailingInput, t.position⟩

/-- The event that closes an evaluation. -/
def closing : Outcome → Event
  | .ok value => .finished value
  | .error e => .failed e

/-- Evaluates all that is left as one expression. -/
def finish (s : Session) : Run :=
  let r := s.parse .expression
  let outcome := r.outcome.bind (checkEnd r.session.lookahead)
  ⟨outcome, r.events ++ [closing outcome], r.session⟩

end Session

/-- Evaluates a text with the events on the way, the first of which is the first token. -/
def trace (source : String) (maxDepth : Nat) : Outcome × List Event :=
  let s := Session.start source maxDepth
  let r := s.finish
  (r.outcome, .lexed s.lookahead :: r.events)

/-- Evaluates a text in which at most `maxDepth` parentheses, signs and exponents are nested. -/
def evaluateWith (source : String) (maxDepth : Nat) : Outcome :=
  (trace source maxDepth).1

/-- Evaluates a text under the default limit. -/
def evaluate (source : String) : Outcome :=
  evaluateWith source Session.defaultMaxDepth

end Reckon
