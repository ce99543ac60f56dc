import Reckon.Session

/-!
# Evaluating by recursive procedures

The grammar is evaluated here by a procedure for each of its levels. The procedures call each other
and stop at the first error. They work on a `Descent.State`: a session, and a counter of the nesting
levels that are open. `Descent.nested` opens a level for the time of a call and gives it back,
whatever the call comes to; `Descent.chain` is the loop over the operators of one level, with as
many turns as there are tokens left. Calls that are active at the same time are paid from a budget,
so that `Descent.call` is recursive on it, and `Descent.parse` calls the procedure of a level with a
budget of six calls for each nesting level.
-/

namespace Reckon

namespace Descent

/-- A session, the number of nesting levels that are open, and the largest such number so far. -/
structure State where
  session : Session
  depth : Nat
  deepest : Nat

namespace State

/-- Nothing is open before the first call. -/
def start (source : String) (maxDepth : Nat) : State :=
  ⟨Session.start source maxDepth, 0, 0⟩

def advance (s : State) : State :=
  { s with session := s.session.advance }

/-- One more level is open. -/
def enter (s : State) : State :=
  { s with depth := s.depth + 1, deepest := max s.deepest (s.depth + 1) }

/-- One level less is open. -/
def leave (s : State) : State :=
  { s with depth := s.depth - 1 }

end State

/-- A procedure: it changes the state and returns a value or throws an error. It comes to nothing
only if the budget of active calls or that of turns in a loop is used up. -/
abbrev Proc (α : Type) := ExceptT EvalError (StateT State Option) α

/-- The look-ahead. -/
def lookahead : Proc Placed := do
  return (← get).session.lookahead

/-- Takes the look-ahead. -/
def advance : Proc Unit :=
  modify State.advance

/-- Comes to nothing. -/
def abort : Proc Float :=
  fun _ => none

/-- Runs a procedure one level deeper, unless that is a level too many. -/
def nested (position : Nat) (body : Proc Float) : Proc Float := fun s =>
  if s.session.maxDepth ≤ s.depth then some (.error ⟨.nestingTooDeep, position⟩, s)
  else (body s.enter).map fun (result, s) => (result, s.leave)

/-- Applies an operator to its operands. -/
def apply (a : Application) : Proc Float :=
  ExceptT.mk (pure a.outcome)

/-- A bound of the tokens that are left. -/
def remaining : Proc Nat := do
  return (← get).session.size

/-- Goes on with an operand as long as operators of one level follow it. Each turn takes an operator
at least, and the loop comes to nothing if it takes more turns than it was given. -/
def chain (level : Level) (operand : Proc Float) : Nat → Float → Proc Float
  | 0, _ => abort
  | turns + 1, left => do
    let t ← lookahead
    match t.token.binaryOp?.filter (fun op => op.level = level) with
    | none => return left
    | some op =>
      advance
      let right ← operand
      let value ← apply (.binary op left right t.position)
      chain level operand turns value

/-- The procedures, from the loosest level of the grammar to the tightest. -/
inductive Procedure where
  | expression
  | term
  | factor
  | power
  | primary
  | grouping

/-- Calls a procedure. Each call is paid from the budget while it is active. -/
def call : Nat → Procedure → Proc Float
  | 0, _ => abort
  | budget + 1, .expression => do
    let left ← call budget .term
    chain .expression (call budget .term) ((← remaining) + 1) left
  | budget + 1, .term => do
    let left ← call budget .factor
    chain .term (call budget .factor) ((← remaining) + 1) left
  | budget + 1, .factor => do
    let t ← lookahead
    match t.token.unaryOp? with
    | none => call budget .power
    | some op =>
      advance
      let value ← nested t.position (call budget .factor)
      apply (.unary op value t.position)
  | budget + 1, .power => do
    let base ← call budget .primary
    let t ← lookahead
    if t.token = .power then
      advance
      let exponent ← nested t.position (call budget .power)
      apply (.binary .pow base exponent t.position)
    else return base
  | budget + 1, .primary => do
    let t ← lookahead
    match t.token with
    | .number value =>
      advance
      return value
    | .opening => call budget .grouping
    | .invalid => throw ⟨.invalidCharacter, t.position⟩
    | _ => throw ⟨.unexpectedToken, t.position⟩
  | budget + 1, .grouping => do
    let t ← lookahead
    advance
    let value ← nested t.position (call budget .expression)
    let next ← lookahead
    if next.token = .closing then
      advance
      return value
    else throw ⟨.unmatchedParenthesis, t.position⟩

/-- The procedure that reads an operand of a level. -/
def Procedure.ofLevel : Level → Procedure
  | .expression => .expression
  | .term => .term
  | .factor => .factor
  | .power => .power
  | .primary => .primary

/-- A call from outside. -/
def parse (goal : Level) : Proc Float := fun s =>
  call (6 * (s.session.maxDepth + 1)) (.ofLevel goal) s

/-- Calls one after the other, also behind failures. -/
def parses : List Level → State → Option (List Outcome × State)
  | [], s => some ([], s)
  | goal :: goals, s => do
    let (outcome, s) ← parse goal s
    let (outcomes, s) ← parses goals s
    return (outcome :: outcomes, s)

/-! ## Steps of a procedure -/

section
variable {α β : Type} {x : Proc α} {f : α → Proc β} {s s' : State}

/-- Behind a value, a procedure goes on with it. -/
theorem bind_ok {a : α} (h : x s = some (.ok a, s')) : (x >>= f) s = f a s' := by
  show ((x s).bind fun r => ExceptT.bindCont f r.1 r.2) = f a s'
  rw [h]
  rfl

/-- Behind an error, nothing more is done. -/
theorem bind_error {e : EvalError} (h : x s = some (.error e, s')) :
    (x >>= f) s = some (.error e, s') := by
  show ((x s).bind fun r => ExceptT.bindCont f r.1 r.2) = _
  rw [h]
  rfl

/-- Without budget, nothing more is done. -/
theorem bind_none (h : x s = none) : (x >>= f) s = none := by
  show ((x s).bind fun r => ExceptT.bindCont f r.1 r.2) = none
  rw [h]
  rfl

/-- The look-ahead is that of the state, which stays as it is. -/
@[simp] theorem lookahead_bind {f : Placed → Proc β} :
    (lookahead >>= f) s = f s.session.lookahead s := rfl

/-- Taking the look-ahead leaves the state that follows. -/
@[simp] theorem advance_bind {f : Unit → Proc β} : (advance >>= f) s = f () s.advance := rfl

/-- A value that is returned changes nothing. -/
@[simp] theorem pure_run {a : α} : (pure a : Proc α) s = some (.ok a, s) := rfl

/-- An error that is raised changes nothing. -/
@[simp] theorem throw_run {e : EvalError} : (throw e : Proc α) s = some (.error e, s) := rfl

/-- An application comes to its outcome and changes nothing. -/
@[simp] theorem apply_run (a : Application) : apply a s = some (a.outcome, s) := rfl

/-- At the limit, nothing is nested any deeper. -/
theorem nested_of_le {position : Nat} {body : Proc Float} (h : s.session.maxDepth ≤ s.depth) :
    nested position body s = some (.error ⟨.nestingTooDeep, position⟩, s) :=
  if_pos h

/-- Below the limit, what is nested is done one level deeper, and the level is given back. -/
theorem nested_of_lt {position : Nat} {body : Proc Float} {r : Outcome}
    (h : s.depth < s.session.maxDepth) (hbody : body s.enter = some (r, s')) :
    nested position body s = some (r, s'.leave) := by
  rw [nested, if_neg (Nat.not_le_of_lt h), hbody]
  rfl

/-- What is nested runs out of budget as a whole. -/
theorem nested_none {position : Nat} {body : Proc Float} (h : s.depth < s.session.maxDepth)
    (hbody : body s.enter = none) : nested position body s = none := by
  rw [nested, if_neg (Nat.not_le_of_lt h), hbody]
  rfl

end

end Descent

end Reckon
