import Reckon.Evaluation
import Reckon.Proofs.Grammar

/-!
# Parsing without computing

A `Parsing` reads the tokens of an expression and builds its tree. It keeps to the grammar and to
the nesting limit, it computes nothing, and it lists the operators in the order in which their last
operand is complete. `Parsing.react` says what it does at a token and `Parsing.run` what a token
list comes to: a `Parse`, which ends in a tree or in a syntax or nesting error.

`Parsing.Expects` and `Parsing.Settles` are the cases of a turn, where an operand has to come and
where one is complete, for all nesting limits at once. What else is said of turns follows from them.
`Parsing.Reads` is the run from one state to another over tokens that are all taken. Every list
that ends in `Token.finish` splits into tokens that are taken and a token at which the parse comes
to its end (`Parsing.run_split`), and a larger limit changes neither (`Parsing.Reads.mono`,
`Parsing.react_mono`).
-/

namespace Reckon

/-- An operator whose last operand is still to come, or a parenthesis that is still open. -/
inductive Frame where
  | binary (op : BinaryOp) (left : Expr) (position : Nat)
  | unary (op : UnaryOp) (position : Nat)
  | group (position : Nat)

namespace Frame

/-- The level of the operand that is still to come. -/
def awaits : Frame → Level
  | .binary op _ _ => op.rightLevel
  | .unary op _ => op.operandLevel
  | .group _ => .expression

/-- The number of nesting levels that the operand still to come is deeper. -/
def levels : Frame → Nat
  | .binary .pow _ _ => 1
  | .binary _ _ _ => 0
  | .unary _ _ => 1
  | .group _ => 1

/-- A frame opens one level at most. -/
theorem levels_le_one (f : Frame) : f.levels ≤ 1 := by
  cases f with
  | binary op left position => cases op <;> simp [levels]
  | unary | group => exact Nat.le_refl 1

/-- The position of the operator or parenthesis. -/
def position : Frame → Nat
  | .binary _ _ position => position
  | .unary _ position => position
  | .group position => position

/-- The operator with all its operands, once the last one is there. -/
def complete? : Frame → Expr → Option Expr
  | .binary op left position, right => some (.binary op left position right)
  | .unary op position, operand => some (.unary op position operand)
  | .group _, _ => none

end Frame

/-- A parse under way: what waits for an operand, the innermost first, and the operand that was
completed last, unless one has to come first. -/
structure Parsing where
  frames : List Frame
  operand : Option Expr

/-- What a parse does at a token. -/
inductive Move where
  /-- The token is taken and the parse goes on. -/
  | shift (next : Parsing)
  /-- The token is taken and the parse fails at once. -/
  | refuse (error : EvalError)
  /-- The token is left and the parse has come to its end. -/
  | stop (result : Except EvalError Expr)

/-- A move, and the operators whose last operand turns out to be complete before it, in order. -/
structure Turn where
  completed : List Expr
  move : Move

/-- What the parse of a token list comes to: the operators in the order in which they were
complete, the tree or the error, and the tokens that are left. -/
structure Parse where
  completed : List Expr
  result : Except EvalError Expr
  rest : List Placed

/-- The kinds of error that the tokens show, whatever they compute and however they nest. -/
def ErrorKind.isSyntax : ErrorKind → Bool
  | .invalidCharacter | .unexpectedToken | .unmatchedParenthesis | .trailingInput => true
  | .divisionByZero | .invalidExponentiation | .nestingTooDeep => false

namespace Parsing

/-- A parse that has read nothing. -/
def start : Parsing := ⟨[], none⟩

/-- The level of the operand that the innermost frame wants, or the goal where there is none. -/
def awaited (goal : Level) : List Frame → Level
  | [] => goal
  | f :: _ => f.awaits

/-- The number of nesting levels that are open. -/
def nesting : List Frame → Nat
  | [] => 0
  | f :: below => f.levels + nesting below

/-- Opens a frame, unless that opens a nesting level too many. -/
def push (maxDepth : Nat) (frames : List Frame) (f : Frame) : Move :=
  if f.levels = 1 ∧ maxDepth ≤ nesting frames then .refuse ⟨.nestingTooDeep, f.position⟩
  else .shift ⟨f :: frames, none⟩

/-- Where a frame is put on the others, the parse does not stop. -/
theorem push_ne_stop {maxDepth : Nat} {frames : List Frame} {f : Frame}
    {result : Except EvalError Expr} : push maxDepth frames f ≠ .stop result := by
  unfold push
  split <;> exact nofun

/-- A frame is refused for nothing but its nesting. -/
theorem push_eq_refuse {maxDepth : Nat} {frames : List Frame} {f : Frame} {e : EvalError}
    (h : push maxDepth frames f = .refuse e) : e.kind = .nestingTooDeep := by
  unfold push at h
  split at h
  · cases h
    rfl
  · cases h

/-- The move where an operand has to come. -/
def expect (goal : Level) (maxDepth : Nat) (frames : List Frame) (t : Placed) : Move :=
  match t.token with
  | .number value => .shift ⟨frames, some (.number value t.position)⟩
  | .opening => push maxDepth frames (.group t.position)
  | .invalid => .stop (.error ⟨.invalidCharacter, t.position⟩)
  | token =>
    match token.unaryOp? with
    | some op =>
      if .factor ≤ awaited goal frames then push maxDepth frames (.unary op t.position)
      else .stop (.error ⟨.unexpectedToken, t.position⟩)
    | none => .stop (.error ⟨.unexpectedToken, t.position⟩)

/-- The turn where an operand is complete: an operator that binds tightly enough goes on with it,
otherwise it is the last operand of the innermost frame. -/
def settle (goal : Level) (maxDepth : Nat) (t : Placed) (frames : List Frame) (x : Expr) : Turn :=
  match Evaluation.continues? (awaited goal frames) t.token with
  | some op => ⟨[], push maxDepth frames (.binary op x t.position)⟩
  | none =>
    match frames with
    | [] => ⟨[], .stop (.ok x)⟩
    | f :: below =>
      match f.complete? x with
      | none =>
        if t.token = .closing then ⟨[], .shift ⟨below, some (.group f.position x t.position)⟩⟩
        else ⟨[], .stop (.error ⟨.unmatchedParenthesis, f.position⟩)⟩
      | some y =>
        let turn := settle goal maxDepth t below y
        ⟨y :: turn.completed, turn.move⟩

/-- What a parse does at its next token. -/
def react (goal : Level) (maxDepth : Nat) (p : Parsing) (t : Placed) : Turn :=
  match p.operand with
  | none => ⟨[], expect goal maxDepth p.frames t⟩
  | some x => settle goal maxDepth t p.frames x

/-- Without an operand, one has to come. -/
@[simp] theorem react_none {goal : Level} {maxDepth : Nat} {frames : List Frame} {t : Placed} :
    react goal maxDepth ⟨frames, none⟩ t = ⟨[], expect goal maxDepth frames t⟩ := rfl

/-- Behind an operand, it is settled what becomes of it. -/
@[simp] theorem react_some {goal : Level} {maxDepth : Nat} {frames : List Frame} {t : Placed}
    {x : Expr} : react goal maxDepth ⟨frames, some x⟩ t = settle goal maxDepth t frames x := rfl

/-- What a parse makes of a token list. A list that breaks off before the parse has come to its
end lacks an operand or a `Token.finish`. -/
def run (goal : Level) (maxDepth : Nat) : Parsing → List Placed → Parse
  | _, [] => ⟨[], .error ⟨.unexpectedToken, 0⟩, []⟩
  | p, t :: ts =>
    match react goal maxDepth p t with
    | ⟨completed, .shift next⟩ =>
      let r := run goal maxDepth next ts
      { r with completed := completed ++ r.completed }
    | ⟨completed, .refuse error⟩ => ⟨completed, .error error, ts⟩
    | ⟨completed, .stop result⟩ => ⟨completed, result, t :: ts⟩

/-- A parse goes from one state to another over tokens that it takes, and completes operators on
the way. -/
inductive Reads (goal : Level) (maxDepth : Nat) :
    Parsing → List Placed → List Expr → Parsing → Prop
  | nil {p : Parsing} : Reads goal maxDepth p [] [] p
  | cons {p q r : Parsing} {t : Placed} {ts : List Placed} {completed later : List Expr} :
      react goal maxDepth p t = ⟨completed, .shift q⟩ → Reads goal maxDepth q ts later r →
      Reads goal maxDepth p (t :: ts) (completed ++ later) r

/-! ## The moves where an operand has to come -/

section
variable {goal : Level} {maxDepth : Nat} {frames : List Frame} {t : Placed}

/-- A number is an operand. -/
theorem expect_number {value : Float} (h : t.token = .number value) :
    expect goal maxDepth frames t = .shift ⟨frames, some (.number value t.position)⟩ := by
  unfold expect
  rw [h]

/-- An opening parenthesis waits for what is in it. -/
theorem expect_opening (h : t.token = .opening) :
    expect goal maxDepth frames t = push maxDepth frames (.group t.position) := by
  unfold expect
  rw [h]

/-- A sign opens a frame where a factor may stand. -/
theorem expect_sign {op : UnaryOp} (h : t.token = op.token)
    (hlevel : .factor ≤ awaited goal frames) :
    expect goal maxDepth frames t = push maxDepth frames (.unary op t.position) := by
  unfold expect
  rw [h]
  cases op <;> exact if_pos hlevel

/-- What cannot begin an operand is blamed itself. -/
theorem expect_unexpected (hn : ∀ value, t.token ≠ .number value) (ho : t.token ≠ .opening)
    (hs : ∀ op : UnaryOp, t.token = op.token → ¬ .factor ≤ awaited goal frames) :
    expect goal maxDepth frames t =
      .stop (.error ⟨if t.token = .invalid then .invalidCharacter else .unexpectedToken,
        t.position⟩) := by
  unfold expect
  split
  · next value h => exact absurd h (hn value)
  · next h => exact absurd h ho
  · next h => rw [if_pos h]
  · next hinvalid =>
    rw [if_neg hinvalid]
    split
    · next op h => exact if_neg (hs op (Token.unaryOp?_eq_some_iff.1 h))
    · rfl

end

/-- What a token does where an operand has to come, by nesting limit. -/
inductive Expects (goal : Level) (t : Placed) (frames : List Frame) : (Nat → Move) → Prop
  | number {value : Float} : t.token = .number value →
      Expects goal t frames fun _ => .shift ⟨frames, some (.number value t.position)⟩
  | opening : t.token = .opening →
      Expects goal t frames fun maxDepth => push maxDepth frames (.group t.position)
  | sign {op : UnaryOp} : t.token = op.token → .factor ≤ awaited goal frames →
      Expects goal t frames fun maxDepth => push maxDepth frames (.unary op t.position)
  | unexpected : Expects goal t frames fun _ =>
      .stop (.error ⟨if t.token = .invalid then .invalidCharacter else .unexpectedToken,
        t.position⟩)

/-- Every move where an operand has to come is one of these, and which one does not depend on the
limit. -/
theorem expect_expects (goal : Level) (t : Placed) (frames : List Frame) :
    ∃ move, Expects goal t frames move ∧
      ∀ maxDepth, expect goal maxDepth frames t = move maxDepth := by
  by_cases hn : ∃ value, t.token = .number value
  · obtain ⟨value, hn⟩ := hn
    exact ⟨_, .number hn, fun _ => expect_number hn⟩
  by_cases ho : t.token = .opening
  · exact ⟨_, .opening ho, fun _ => expect_opening ho⟩
  by_cases hs : ∃ op : UnaryOp, t.token = op.token ∧ .factor ≤ awaited goal frames
  · obtain ⟨op, hs, hlevel⟩ := hs
    exact ⟨_, .sign hs hlevel, fun _ => expect_sign hs hlevel⟩
  · exact ⟨_, .unexpected, fun _ => expect_unexpected (fun value h => hn ⟨value, h⟩) ho
      fun op h hlevel => hs ⟨op, h, hlevel⟩⟩

section
variable {goal : Level} {maxDepth : Nat} {frames : List Frame} {t : Placed}

/-- A parse that stops where an operand has to come blames the token. -/
theorem expect_eq_stop {result : Except EvalError Expr}
    (h : expect goal maxDepth frames t = .stop result) :
    result = .error ⟨if t.token = .invalid then .invalidCharacter else .unexpectedToken,
      t.position⟩ := by
  obtain ⟨move, hexpects, hexpect⟩ := expect_expects goal t frames
  rw [hexpect] at h
  cases hexpects with
  | number => cases h
  | opening | sign => exact absurd h push_ne_stop
  | unexpected =>
    injection h with h
    exact h.symm

/-- Where an operand has to come, a token is refused only if it is nested too deep. -/
theorem expect_eq_refuse {e : EvalError} (h : expect goal maxDepth frames t = .refuse e) :
    e.kind = .nestingTooDeep := by
  obtain ⟨move, hexpects, hexpect⟩ := expect_expects goal t frames
  rw [hexpect] at h
  cases hexpects with
  | opening | sign => exact push_eq_refuse h
  | number | unexpected => cases h

end

/-! ## The turns of a complete operand -/

section
variable {goal : Level} {maxDepth : Nat} {frames : List Frame} {f : Frame} {t : Placed} {x y : Expr}

/-- An operator that binds tightly enough opens a frame on the operand. -/
theorem settle_continues {op : BinaryOp}
    (h : Evaluation.continues? (awaited goal frames) t.token = some op) :
    settle goal maxDepth t frames x = ⟨[], push maxDepth frames (.binary op x t.position)⟩ := by
  unfold settle
  rw [h]

/-- With no frame open the operand is the whole tree. -/
theorem settle_nil (h : Evaluation.continues? (awaited goal []) t.token = none) :
    settle goal maxDepth t [] x = ⟨[], .stop (.ok x)⟩ := by
  unfold settle
  rw [h]

/-- A closing parenthesis makes a group of the operand. -/
theorem settle_closing {opening : Nat} (h : t.token = .closing) :
    settle goal maxDepth t (.group opening :: frames) x =
      ⟨[], .shift ⟨frames, some (.group opening x t.position)⟩⟩ := by
  unfold settle
  rw [h]
  rfl

/-- Where nothing goes on with the operand and no parenthesis closes, the open one is blamed. -/
theorem settle_unclosed {opening : Nat}
    (h : Evaluation.continues? (awaited goal (.group opening :: frames)) t.token = none)
    (hc : t.token ≠ .closing) :
    settle goal maxDepth t (.group opening :: frames) x =
      ⟨[], .stop (.error ⟨.unmatchedParenthesis, opening⟩)⟩ := by
  unfold settle
  rw [h]
  simp only [Frame.complete?, if_neg hc, Frame.position]

/-- Where nothing goes on with the last operand of an operator, the operator is complete. -/
theorem settle_complete (hf : f.complete? x = some y)
    (h : Evaluation.continues? (awaited goal (f :: frames)) t.token = none) :
    settle goal maxDepth t (f :: frames) x =
      ⟨y :: (settle goal maxDepth t frames y).completed,
        (settle goal maxDepth t frames y).move⟩ := by
  rw [settle, h]
  simp only [hf]

end

/-- Where nothing goes on with an operand at the token `t`, the operand completes the operators that
wait for it, one after the other. -/
inductive Pops (goal : Level) (t : Placed) :
    List Frame → Expr → List Expr → List Frame → Expr → Prop
  | nil {frames : List Frame} {x : Expr} : Pops goal t frames x [] frames x
  | cons {f : Frame} {below rest : List Frame} {x y z : Expr} {completed : List Expr} :
      f.complete? x = some y → Evaluation.continues? (awaited goal (f :: below)) t.token = none →
      Pops goal t below y completed rest z → Pops goal t (f :: below) x (y :: completed) rest z

/-- What a token does where an operand is complete, by nesting limit. Operators are completed, as
many as can be, and then there are four cases: an operator goes on with the operand, the tree is
whole, the innermost parenthesis is closed, or it is left open. -/
inductive Settles (goal : Level) (t : Placed) (frames : List Frame) (x : Expr)
    (completed : List Expr) : (Nat → Move) → Prop
  | continues {rest : List Frame} {y : Expr} {op : BinaryOp} :
      Pops goal t frames x completed rest y →
      Evaluation.continues? (awaited goal rest) t.token = some op →
      Settles goal t frames x completed fun maxDepth =>
        push maxDepth rest (.binary op y t.position)
  | whole {y : Expr} :
      Pops goal t frames x completed [] y → Evaluation.continues? goal t.token = none →
      Settles goal t frames x completed fun _ => .stop (.ok y)
  | closes {below : List Frame} {opening : Nat} {y : Expr} :
      Pops goal t frames x completed (.group opening :: below) y → t.token = .closing →
      Settles goal t frames x completed fun _ =>
        .shift ⟨below, some (.group opening y t.position)⟩
  | unclosed {below : List Frame} {opening : Nat} {y : Expr} :
      Pops goal t frames x completed (.group opening :: below) y → t.token ≠ .closing →
      Evaluation.continues? .expression t.token = none →
      Settles goal t frames x completed fun _ => .stop (.error ⟨.unmatchedParenthesis, opening⟩)

/-- What completes the operator on top is settled below it. -/
theorem Settles.cons {goal : Level} {t : Placed} {f : Frame} {below : List Frame} {x y : Expr}
    {completed : List Expr} {move : Nat → Move} (hy : f.complete? x = some y)
    (hc : Evaluation.continues? (awaited goal (f :: below)) t.token = none)
    (h : Settles goal t below y completed move) :
    Settles goal t (f :: below) x (y :: completed) move := by
  cases h with
  | continues hpops hop => exact .continues (.cons hy hc hpops) hop
  | whole hpops hnone => exact .whole (.cons hy hc hpops) hnone
  | closes hpops ht => exact .closes (.cons hy hc hpops) ht
  | unclosed hpops ht hnone => exact .unclosed (.cons hy hc hpops) ht hnone

/-- Behind what is settled, the operators that could be completed are. -/
theorem Settles.pops {goal : Level} {t : Placed} {frames : List Frame} {x : Expr}
    {completed : List Expr} {move : Nat → Move} (h : Settles goal t frames x completed move) :
    ∃ rest y, Pops goal t frames x completed rest y := by
  cases h with
  | continues hpops _ => exact ⟨_, _, hpops⟩
  | whole hpops _ => exact ⟨_, _, hpops⟩
  | closes hpops _ => exact ⟨_, _, hpops⟩
  | unclosed hpops _ _ => exact ⟨_, _, hpops⟩

/-- Every turn at a complete operand is one of these, and which one does not depend on the limit. -/
theorem settle_settles (goal : Level) (t : Placed) (frames : List Frame) (x : Expr) :
    ∃ completed move, Settles goal t frames x completed move ∧
      ∀ maxDepth, settle goal maxDepth t frames x = ⟨completed, move maxDepth⟩ := by
  induction frames generalizing x with
  | nil =>
    cases hc : Evaluation.continues? (awaited goal []) t.token with
    | some op => exact ⟨[], _, .continues .nil hc, fun _ => settle_continues hc⟩
    | none => exact ⟨[], _, .whole .nil hc, fun _ => settle_nil hc⟩
  | cons f below ih =>
    cases hc : Evaluation.continues? (awaited goal (f :: below)) t.token with
    | some op => exact ⟨[], _, .continues .nil hc, fun _ => settle_continues hc⟩
    | none =>
      cases f with
      | group opening =>
        by_cases ht : t.token = .closing
        · exact ⟨[], _, .closes .nil ht, fun _ => settle_closing ht⟩
        · exact ⟨[], _, .unclosed .nil ht hc, fun _ => settle_unclosed hc ht⟩
      | binary | unary =>
        obtain ⟨completed, move, hsettles, h⟩ := ih _
        exact ⟨_, move, .cons rfl hc hsettles, fun d => by rw [settle_complete rfl hc, h d]⟩

section
variable {goal : Level} {maxDepth : Nat} {frames : List Frame} {t : Placed} {x : Expr}
  {completed : List Expr}

/-- A parse that stops at a complete operand has the whole tree, or a parenthesis is left open. -/
theorem settle_eq_stop {result : Except EvalError Expr}
    (h : settle goal maxDepth t frames x = ⟨completed, .stop result⟩) :
    (∃ y, result = .ok y ∧ Pops goal t frames x completed [] y ∧
        Evaluation.continues? goal t.token = none) ∨
      ∃ below opening y, result = .error ⟨.unmatchedParenthesis, opening⟩ ∧
        Pops goal t frames x completed (.group opening :: below) y := by
  obtain ⟨completed', move, hsettles, hsettle⟩ := settle_settles goal t frames x
  rw [hsettle] at h
  injection h with hcompleted hmove
  subst hcompleted
  cases hsettles with
  | continues => exact absurd hmove push_ne_stop
  | closes => cases hmove
  | whole hpops hnone =>
    injection hmove with hresult
    exact .inl ⟨_, hresult.symm, hpops, hnone⟩
  | unclosed hpops =>
    injection hmove with hresult
    exact .inr ⟨_, _, _, hresult.symm, hpops⟩

/-- Behind an operand, a token is refused only if it is nested too deep. -/
theorem settle_eq_refuse {e : EvalError}
    (h : settle goal maxDepth t frames x = ⟨completed, .refuse e⟩) : e.kind = .nestingTooDeep := by
  obtain ⟨completed', move, hsettles, hsettle⟩ := settle_settles goal t frames x
  rw [hsettle] at h
  injection h with _ hmove
  cases hsettles with
  | continues => exact push_eq_refuse hmove
  | whole | closes | unclosed => cases hmove

end

/-! ## Runs over tokens that are taken -/

section
variable {goal : Level} {maxDepth : Nat} {p q r : Parsing} {t : Placed} {ts us : List Placed}
  {completed later : List Expr}

/-- Two runs join. -/
theorem Reads.append (h : Reads goal maxDepth p ts completed q)
    (h' : Reads goal maxDepth q us later r) :
    Reads goal maxDepth p (ts ++ us) (completed ++ later) r := by
  induction h with
  | nil => exact h'
  | cons hreact _ ih =>
    rw [List.append_assoc]
    exact .cons hreact (ih h')

/-- A run over a sequence passes through a state behind each of its beginnings. -/
theorem Reads.split (h : Reads goal maxDepth p (ts ++ us) completed r) :
    ∃ q done later, Reads goal maxDepth p ts done q ∧ Reads goal maxDepth q us later r := by
  induction ts generalizing p completed with
  | nil => exact ⟨p, [], completed, .nil, h⟩
  | cons t ts ih =>
    cases h with
    | cons hreact hrest =>
      obtain ⟨q, done, later, hq, hr⟩ := ih hrest
      exact ⟨q, _, later, .cons hreact hq, hr⟩

/-- The tokens determine the state that they lead to. -/
theorem Reads.unique (h : Reads goal maxDepth p ts completed q)
    (h' : Reads goal maxDepth p ts later r) : q = r ∧ completed = later := by
  induction h generalizing later with
  | nil =>
    cases h' with
    | nil => exact ⟨rfl, rfl⟩
  | cons hreact _ ih =>
    cases h' with
    | cons hreact' hrest' =>
      rw [hreact] at hreact'
      cases hreact'
      obtain ⟨rfl, rfl⟩ := ih hrest'
      exact ⟨rfl, rfl⟩

/-- What is taken does not change what the parse makes of the tokens behind it. -/
theorem Reads.run (h : Reads goal maxDepth p ts completed q) :
    Parsing.run goal maxDepth p (ts ++ us) =
      { Parsing.run goal maxDepth q us with
        completed := completed ++ (Parsing.run goal maxDepth q us).completed } := by
  induction h with
  | nil => rfl
  | cons hreact _ ih =>
    rw [List.cons_append, Parsing.run, hreact]
    simp only [ih, List.append_assoc]

end

/-! ## Where a run comes to its end -/

/-- The end of the text is never taken. -/
theorem settle_finish {t : Placed} (ht : t.token = .finish) (goal : Level) (maxDepth : Nat)
    (frames : List Frame) (x : Expr) :
    ∃ completed result, settle goal maxDepth t frames x = ⟨completed, .stop result⟩ := by
  obtain ⟨completed, move, hsettles, h⟩ := settle_settles goal t frames x
  cases hsettles with
  | continues _ hop => rw [ht] at hop; cases hop
  | whole => exact ⟨_, _, h _⟩
  | closes _ hclosing => rw [ht] at hclosing; cases hclosing
  | unclosed => exact ⟨_, _, h _⟩

/-- The end of the text stops a parse. -/
theorem react_finish {t : Placed} (ht : t.token = .finish) (goal : Level) (maxDepth : Nat)
    (p : Parsing) : ∃ completed result, react goal maxDepth p t = ⟨completed, .stop result⟩ := by
  unfold react
  split
  · refine ⟨[], .error ⟨.unexpectedToken, t.position⟩, ?_⟩
    unfold expect
    rw [ht]
    rfl
  · exact settle_finish ht _ _ _ _

/-- A parse comes to its end at one token: what stands before it is taken, and at that token the
parse refuses to open a level or stops. -/
theorem run_split (goal : Level) (maxDepth : Nat) {ts : List Placed}
    (hfinish : ∃ t ∈ ts, t.token = .finish) (p : Parsing) :
    ∃ before t after done q, ts = before ++ t :: after ∧ Reads goal maxDepth p before done q ∧
      ((∃ completed error, react goal maxDepth q t = ⟨completed, .refuse error⟩ ∧
          run goal maxDepth p ts = ⟨done ++ completed, .error error, after⟩) ∨
        ∃ completed result, react goal maxDepth q t = ⟨completed, .stop result⟩ ∧
          run goal maxDepth p ts = ⟨done ++ completed, result, t :: after⟩) := by
  induction ts generalizing p with
  | nil => simp at hfinish
  | cons t ts ih =>
    rcases hreact : react goal maxDepth p t with ⟨completed, move⟩
    cases move with
    | shift next =>
      have htail : ∃ t ∈ ts, t.token = .finish := by
        obtain ⟨u, hu, hutok⟩ := hfinish
        rcases List.mem_cons.1 hu with rfl | hu
        · obtain ⟨_, _, hstop⟩ := react_finish hutok goal maxDepth p
          rw [hreact] at hstop
          cases hstop
        · exact ⟨u, hu, hutok⟩
      obtain ⟨before, u, after, done, q, rfl, hreads, hend⟩ := ih htail next
      refine ⟨t :: before, u, after, completed ++ done, q, rfl, .cons hreact hreads, ?_⟩
      rcases hend with ⟨later, error, hu, hrun⟩ | ⟨later, result, hu, hrun⟩
      · exact .inl ⟨later, error, hu, by rw [run, hreact]; simp only [hrun, List.append_assoc]⟩
      · exact .inr ⟨later, result, hu, by rw [run, hreact]; simp only [hrun, List.append_assoc]⟩
    | refuse error =>
      exact ⟨[], t, ts, [], p, rfl, .nil,
        .inl ⟨completed, error, hreact, by rw [run, hreact]; rfl⟩⟩
    | stop result =>
      exact ⟨[], t, ts, [], p, rfl, .nil,
        .inr ⟨completed, result, hreact, by rw [run, hreact]; rfl⟩⟩

/-! ## The errors of a parse -/

section
variable {goal : Level} {maxDepth : Nat} {p : Parsing} {t : Placed} {ts : List Placed}
  {completed : List Expr} {e : EvalError}

/-- A token is refused for nothing but its nesting. -/
theorem react_eq_refuse (h : react goal maxDepth p t = ⟨completed, .refuse e⟩) :
    e.kind = .nestingTooDeep := by
  obtain ⟨frames, operand⟩ := p
  cases operand with
  | none =>
    injection h with _ hmove
    exact expect_eq_refuse hmove
  | some x => exact settle_eq_refuse h

/-- A parse that stops with an error has met one of the syntax. -/
theorem react_eq_stop (h : react goal maxDepth p t = ⟨completed, .stop (.error e)⟩) :
    e.kind.isSyntax := by
  obtain ⟨frames, operand⟩ := p
  cases operand with
  | none =>
    injection h with _ hmove
    injection expect_eq_stop hmove with herror
    rw [herror]
    dsimp only
    split <;> rfl
  | some x =>
    rcases settle_eq_stop h with ⟨y, hresult, -⟩ | ⟨below, opening, y, hresult, -⟩
    · cases hresult
    · cases hresult
      rfl

/-- A parse that fails has met an error of the syntax or a level too many. -/
theorem run_error (h : (run goal maxDepth p ts).result = .error e) :
    e.kind.isSyntax ∨ e.kind = .nestingTooDeep := by
  induction ts generalizing p with
  | nil =>
    cases h
    exact .inl rfl
  | cons t ts ih =>
    rcases hreact : react goal maxDepth p t with ⟨completed, move⟩
    rw [run, hreact] at h
    cases move with
    | shift next => exact ih h
    | refuse error =>
      cases h
      exact .inr (react_eq_refuse hreact)
    | stop result =>
      dsimp only at h
      subst h
      exact .inl (react_eq_stop hreact)

end

/-! ## A larger limit -/

section
variable {goal : Level} {maxDepth limit : Nat} {p q : Parsing} {t : Placed} {ts : List Placed}
  {completed : List Expr}

/-- A frame that the limit allows, a larger one allows as well. -/
theorem push_mono (hle : maxDepth ≤ limit) {frames : List Frame} {f : Frame}
    (h : ∀ error, push maxDepth frames f ≠ .refuse error) :
    push limit frames f = push maxDepth frames f := by
  unfold push at h ⊢
  split at h
  · exact absurd rfl (h _)
  · next hroom =>
    rw [if_neg hroom, if_neg]
    rintro ⟨hlevels, hdeep⟩
    exact hroom ⟨hlevels, Nat.le_trans hle hdeep⟩

/-- A larger limit changes nothing where no token is refused. -/
theorem expect_mono (hle : maxDepth ≤ limit) {frames : List Frame}
    (h : ∀ error, expect goal maxDepth frames t ≠ .refuse error) :
    expect goal limit frames t = expect goal maxDepth frames t := by
  obtain ⟨move, hexpects, hexpect⟩ := expect_expects goal t frames
  rw [hexpect] at h
  rw [hexpect, hexpect]
  cases hexpects with
  | opening | sign => exact push_mono hle h
  | number | unexpected => rfl

/-- Nor does it behind an operand. -/
theorem settle_mono (hle : maxDepth ≤ limit) {frames : List Frame} {x : Expr}
    (h : ∀ error, (settle goal maxDepth t frames x).move ≠ .refuse error) :
    settle goal limit t frames x = settle goal maxDepth t frames x := by
  obtain ⟨completed, move, hsettles, hsettle⟩ := settle_settles goal t frames x
  rw [hsettle] at h
  rw [hsettle, hsettle]
  cases hsettles with
  | continues => exact congrArg (Turn.mk completed) (push_mono hle h)
  | whole | closes | unclosed => rfl

/-- Where a level is not refused, a larger limit makes no difference. -/
theorem react_mono (hle : maxDepth ≤ limit)
    (h : ∀ error, (react goal maxDepth p t).move ≠ .refuse error) :
    react goal limit p t = react goal maxDepth p t := by
  obtain ⟨frames, operand⟩ := p
  cases operand with
  | none => exact congrArg (Turn.mk []) (expect_mono hle h)
  | some x => exact settle_mono hle h

/-- What is read within the limit is read the same within a larger one. -/
theorem Reads.mono (hle : maxDepth ≤ limit) (h : Reads goal maxDepth p ts completed q) :
    Reads goal limit p ts completed q := by
  induction h with
  | nil => exact .nil
  | cons hreact _ ih =>
    refine .cons ?_ ih
    rw [react_mono hle (by rw [hreact]; exact nofun), hreact]

end

end Parsing

end Reckon
