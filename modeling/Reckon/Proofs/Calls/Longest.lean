import Reckon.Proofs.Calls
import Reckon.Proofs.Parsing.Completeness
import Reckon.Proofs.TwoPhase

/-!
# Calls take the longest operand

A call on a session evaluates what stands at its look-ahead as an operand of one level, and the
tokens behind that operand may be of any kind. `Expr.LongestIn` says that an expression is the
longest beginning of a token list that the level derives. A parse that ends in a tree stops at a
token that does not go on with the tree (`Parsing.run_stops`), and where such a token comes next a
derivation is the longest one (`Derives.longestIn`). A call that returns a value takes the tokens of
the tree off the stream of its session (`Session.parse_eq_ok`). `parses_take_longest` joins these
for every call in a sequence of calls on a text.
-/

namespace Reckon

/-! ## The longest operand -/

/-- A tree is written with at least one token. -/
theorem Expr.tokens_ne_nil (x : Expr) : x.tokens ≠ [] := by
  cases x <;> simp [tokens]

/-- Of the beginnings of the token list that the level derives, the expression is the longest. -/
structure Expr.LongestIn (goal : Level) (ts : List Placed) (x : Expr) : Prop where
  derives : Derives goal x
  begins : x.tokens <+: ts
  longest : ∀ y, Derives goal y → y.tokens <+: ts → y.tokens.length ≤ x.tokens.length

/-- A derivation is the longest one where a token comes next that does not go on with it. -/
theorem Derives.longestIn {goal : Level} {x : Expr} (hx : Derives goal x) {t : Placed}
    (ht : Evaluation.continues? goal t.token = none) (rest : List Placed) :
    x.LongestIn goal (x.tokens ++ t :: rest) := by
  refine ⟨hx, List.prefix_append _ _, fun y hy hbegins => ?_⟩
  -- A longer derivation would go on with `t`.
  by_contra hlt
  have hle : x.tokens.length ≤ y.tokens.length := Nat.le_of_not_le hlt
  obtain ⟨more, hmore⟩ := List.prefix_of_prefix_length_le (List.prefix_append _ _) hbegins hle
  rw [← hmore, List.prefix_append_right_inj] at hbegins
  cases more with
  | nil =>
    rw [List.append_nil] at hmore
    exact hlt (Nat.le_of_eq (congrArg List.length hmore.symm))
  | cons u more =>
    obtain ⟨rfl, -⟩ := List.cons_prefix_cons.1 hbegins
    exact hx.not_extends ht hy hmore.symm

namespace Parsing

section
variable {goal : Level} {maxDepth : Nat} {p : Parsing} {ts : List Placed} {x : Expr}

/-- A parse that ends in a tree stops at a token that does not go on with it. -/
theorem run_stops (h : (run goal maxDepth p ts).result = .ok x) :
    ∃ t rest, (run goal maxDepth p ts).rest = t :: rest ∧
      Evaluation.continues? goal t.token = none := by
  induction ts generalizing p with
  | nil => cases h
  | cons t ts ih =>
    rcases hreact : react goal maxDepth p t with ⟨completed, move⟩
    rw [run, hreact] at h ⊢
    cases move with
    | shift next => exact ih h
    | refuse error => cases h
    | stop result =>
      dsimp only at h
      subst h
      obtain ⟨frames, operand⟩ := p
      cases operand with
      | none =>
        injection hreact with _ hstop
        cases expect_eq_stop hstop
      | some y =>
        rcases settle_eq_stop hreact with ⟨_, -, -, hnone⟩ | ⟨_, _, _, hresult, -⟩
        · exact ⟨t, ts, rfl, hnone⟩
        · cases hresult

/-- The tree that a parse ends in is the longest operand that the tokens begin with. -/
theorem run_longestIn (h : (run goal maxDepth start ts).result = .ok x) :
    x.LongestIn goal ts ∧ ts = x.tokens ++ (run goal maxDepth start ts).rest := by
  obtain ⟨hderives, htokens, -, -⟩ := After.start.run_ok h
  obtain ⟨t, rest, hrest, ht⟩ := run_stops h
  rw [List.nil_append] at htokens
  refine ⟨?_, htokens.symm⟩
  rw [← htokens, hrest]
  exact hderives.longestIn ht rest

end

end Parsing

/-! ## Calls -/

/-- A call that returns a value takes the longest operand off the stream, which has that value. It
reads one token behind the operand, and that is the look-ahead that it leaves. -/
theorem Session.parse_eq_ok {s : Session} {goal : Level} {value : Float}
    (h : (s.parse goal).outcome = .ok value) :
    ∃ x : Expr, x.LongestIn goal s.stream ∧ x.eval = .ok value ∧
      s.stream = x.tokens ++ (s.parse goal).session.stream ∧
      s.lookahead :: lexings (s.parse goal).events =
        x.tokens ++ [(s.parse goal).session.lookahead] := by
  have hrealises : (Parsing.run goal s.maxDepth Parsing.start s.stream).Realises (s.parse goal) :=
    run_realises (.wants .nil) s
  cases hrealises with
  | failed _ houtcome => cases houtcome.symm.trans h
  | rejected _ _ houtcome _ => cases houtcome.symm.trans h
  | @accepted x _ _ hresult hvalue houtcome hrest =>
    cases houtcome.symm.trans h
    obtain ⟨hlongest, hsplit⟩ := Parsing.run_longestIn hresult
    rw [← hrest] at hsplit
    obtain ⟨taken, htaken, hread⟩ := s.run_stream (.start goal s.maxDepth)
    have heq : taken = x.tokens := List.append_cancel_right (htaken.symm.trans hsplit)
    rw [heq] at hread
    exact ⟨x, hlongest, hvalue, hsplit, hread⟩

/-- Whatever calls were made on a session of a text before, and whether they failed or not, a call
that returns a value takes the longest operand of its level off the tokens that are left of the
text, and returns the value of that operand. -/
theorem parses_take_longest (source : String) (maxDepth : Nat) (goals : List Level) (goal : Level)
    (value : Float) :
    let s := ((Session.start source maxDepth).parses goals).2
    (s.parse goal).outcome = .ok value →
      ∃ (before : List Placed) (x : Expr) (rest : List Placed),
        tokens source = before ++ (x.tokens ++ rest) ∧
        s.stream = x.tokens ++ rest ∧ (s.parse goal).session.stream = rest ∧
        s.lookahead :: lexings (s.parse goal).events =
          x.tokens ++ [(s.parse goal).session.lookahead] ∧
        x.tokens ≠ [] ∧ x.LongestIn goal (x.tokens ++ rest) ∧ x.eval = .ok value := by
  intro s h
  obtain ⟨x, hlongest, hvalue, hsplit, hread⟩ := Session.parse_eq_ok h
  obtain ⟨before, hbefore, -⟩ := (Session.start source maxDepth).parses_stream goals
  rw [Session.stream_start] at hbefore
  have htext : tokens source = before ++ (x.tokens ++ (s.parse goal).session.stream) := by
    rw [hbefore, ← hsplit]
  exact ⟨before, x, _, htext, hsplit, rfl, hread, x.tokens_ne_nil, hsplit ▸ hlongest, hvalue⟩

/-- Behind a quotient that has failed, a term ends in front of the sum that it belongs to. -/
theorem parses_take_longest_term :
    let s := ((Session.start "1/0 2*3+4" 0).parses [.term]).2
    (s.parse .term).outcome = .ok 6 ∧
      ∃ (before : List Placed) (x : Expr) (rest : List Placed),
        tokens "1/0 2*3+4" = before ++ (x.tokens ++ rest) ∧
        s.stream = x.tokens ++ rest ∧ (s.parse .term).session.stream = rest ∧
        s.lookahead :: lexings (s.parse .term).events =
          x.tokens ++ [(s.parse .term).session.lookahead] ∧
        x.tokens ≠ [] ∧ x.LongestIn .term (x.tokens ++ rest) ∧ x.eval = .ok 6 := by
  have hvalue : (((Session.start "1/0 2*3+4" 0).parses [.term]).2.parse .term).outcome = .ok 6 := by
    decide +kernel
  exact ⟨hvalue, parses_take_longest "1/0 2*3+4" 0 [.term] .term 6 hvalue⟩

end Reckon
