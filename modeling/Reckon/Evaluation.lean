import Reckon.Arithmetic
import Reckon.Token

/-!
# Evaluating token by token

An `Evaluation` reads the tokens of an expression from the left and computes as it goes. Its state
is a stack of what is `Pending`, operators and open parentheses whose operand is still to come,
and the value of the last operand once that is complete. `Evaluation.react` says what happens at
the next token:

* where an operand has to come, a number completes it, and a parenthesis or a sign is one thing
  more that is pending;
* where an operand is complete, an operator that binds tightly enough for the place goes on with
  it as its left operand; otherwise the operand belongs to the top of the stack, which is applied
  at once and makes a new operand of it, until the stack is empty or an open parenthesis asks for
  the closing one.

The tokens of one level make one operand of that level: `Pending.awaits` is the level that a
pending operator wants, and an evaluation as a whole has a `goal`. Parentheses, signs and exponents
nest; more than `maxDepth` of them may not be open at a time.
-/

namespace Reckon

/-- An operator whose right operand is still to come, or a parenthesis that is still open, with
its position. -/
inductive Pending where
  | binary (op : BinaryOp) (left : Float) (position : Nat)
  | unary (op : UnaryOp) (position : Nat)
  | group (position : Nat)

namespace Pending

/-- The level of the operand that is still to come. -/
def awaits : Pending → Level
  | .binary op _ _ => op.rightLevel
  | .unary op _ => op.operandLevel
  | .group _ => .expression

/-- Whether the operand still to come is one nesting level deeper. -/
def nests : Pending → Bool
  | .binary op _ _ => op = .pow
  | .unary _ _ => true
  | .group _ => true

/-- The position of the operator or parenthesis. -/
def position : Pending → Nat
  | .binary _ _ position => position
  | .unary _ position => position
  | .group position => position

/-- The number of nesting levels that this opens. -/
def levels (p : Pending) : Nat :=
  if p.nests then 1 else 0

/-- The operator with all its operands, once the last one is there; a parenthesis applies
nothing. -/
def application? : Pending → Float → Option Application
  | .binary op left position, right => some (.binary op left right position)
  | .unary op position, operand => some (.unary op operand position)
  | .group _, _ => none

end Pending

/-- An evaluation under way. -/
structure Evaluation where
  /-- The level of what is to be evaluated as a whole. -/
  goal : Level
  /-- The number of nesting levels that may be open. -/
  maxDepth : Nat
  /-- What waits for an operand, the innermost first. -/
  pending : List Pending
  /-- The number of nesting levels that are open. -/
  depth : Nat
  /-- The operand that was completed last, unless one has to come first. -/
  operand : Option Float

/-- What an evaluation does at a token. -/
inductive Verdict where
  /-- The token is taken and the evaluation goes on. -/
  | proceed (next : Evaluation)
  /-- The token is taken and the evaluation fails at once. -/
  | refuse (error : EvalError)
  /-- The token is left and the evaluation has come to its outcome. -/
  | stop (outcome : Outcome)

/-- What an evaluation does at a token, and the operators that it applies before, in order. -/
structure Reaction where
  applied : List Application
  verdict : Verdict

namespace Evaluation

/-- An evaluation of the given level that has read nothing. -/
def start (goal : Level) (maxDepth : Nat) : Evaluation :=
  ⟨goal, maxDepth, [], 0, none⟩

/-- The level of the operand that the top of the stack wants, or the goal of an empty stack. -/
def awaited (goal : Level) : List Pending → Level
  | [] => goal
  | p :: _ => p.awaits

/-- Puts something on the stack, unless that opens a level too many; the error is blamed on what
opens it. -/
def push (goal : Level) (maxDepth : Nat) (stack : List Pending) (depth : Nat) (p : Pending) :
    Verdict :=
  if p.nests && maxDepth ≤ depth then .refuse ⟨.nestingTooDeep, p.position⟩
  else .proceed ⟨goal, maxDepth, p :: stack, depth + p.levels, none⟩

/-- The reaction where an operand has to come. A sign may stand only where a factor may. -/
def expect (goal : Level) (maxDepth : Nat) (stack : List Pending) (depth : Nat) (t : Placed) :
    Verdict :=
  match t.token with
  | .number value => .proceed ⟨goal, maxDepth, stack, depth, some value⟩
  | .opening => push goal maxDepth stack depth (.group t.position)
  | .invalid => .stop (.error ⟨.invalidCharacter, t.position⟩)
  | token =>
    match token.unaryOp? with
    | some op =>
      if op.level ≤ awaited goal stack then push goal maxDepth stack depth (.unary op t.position)
      else .stop (.error ⟨.unexpectedToken, t.position⟩)
    | none => .stop (.error ⟨.unexpectedToken, t.position⟩)

/-- The operator that a token continues an operand with, if it binds tightly enough for an operand
of the awaited level. -/
def continues? (awaited : Level) (token : Token) : Option BinaryOp :=
  token.binaryOp?.filter fun op => op.level ≤ awaited

/-- The reaction where an operand is complete: it is continued, or it goes to the top of the
stack. An open parenthesis gives its level back when it is closed, an operator when it is
applied. -/
def settle (goal : Level) (maxDepth : Nat) (t : Placed) (stack : List Pending) (depth : Nat)
    (value : Float) : Reaction :=
  match continues? (awaited goal stack) t.token with
  | some op => ⟨[], push goal maxDepth stack depth (.binary op value t.position)⟩
  | none =>
    match stack with
    | [] => ⟨[], .stop (.ok value)⟩
    | p :: below =>
      match p.application? value with
      | none =>
        if t.token = .closing then
          ⟨[], .proceed ⟨goal, maxDepth, below, depth - p.levels, some value⟩⟩
        else ⟨[], .stop (.error ⟨.unmatchedParenthesis, p.position⟩)⟩
      | some application =>
        match application.outcome with
        | .ok result =>
          let reaction := settle goal maxDepth t below (depth - p.levels) result
          ⟨application :: reaction.applied, reaction.verdict⟩
        | .error e => ⟨[application], .stop (.error e)⟩

/-- What the evaluation does at its next token. -/
def react (e : Evaluation) (t : Placed) : Reaction :=
  match e.operand with
  | none => ⟨[], expect e.goal e.maxDepth e.pending e.depth t⟩
  | some value => settle e.goal e.maxDepth t e.pending e.depth value

end Evaluation

/-! ## The end of the text is never taken, nor what is invalid -/

/-- A token that is neither an operator nor a closing parenthesis is left where an operand is
complete. -/
theorem Evaluation.settle_stops {t : Placed} (hop : t.token.binaryOp? = none)
    (hclosing : t.token ≠ .closing) (goal : Level) (maxDepth : Nat) (stack : List Pending)
    (depth : Nat) (value : Float) :
    ∃ outcome, (settle goal maxDepth t stack depth value).verdict = .stop outcome := by
  induction stack generalizing depth value with
  | nil =>
    simp only [settle, continues?, hop, Option.filter_none]
    exact ⟨_, rfl⟩
  | cons p below ih =>
    simp only [settle, continues?, hop, Option.filter_none, if_neg hclosing]
    split
    · exact ⟨_, rfl⟩
    · split
      · exact ih _ _
      · exact ⟨_, rfl⟩

theorem Evaluation.react_stops {t : Placed} (ht : t.token = .finish ∨ t.token = .invalid)
    (e : Evaluation) : ∃ outcome, (e.react t).verdict = .stop outcome := by
  obtain ⟨token, position⟩ := t
  unfold react
  split
  · rcases ht with rfl | rfl <;> exact ⟨_, rfl⟩
  · rcases ht with rfl | rfl <;> exact settle_stops rfl (by nofun) _ _ _ _ _

/-- The end of the text stops every evaluation. -/
theorem Evaluation.react_finish (e : Evaluation) (position : Nat) :
    ∃ outcome, (e.react ⟨.finish, position⟩).verdict = .stop outcome :=
  react_stops (.inl rfl) e

end Reckon
