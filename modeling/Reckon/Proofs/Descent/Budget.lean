import Reckon.Proofs.Descent.Stack

/-!
# Calls that are active at the same time

`Descent.evaluateWithin` evaluates a text with recursive procedures, as long as no more than so many
calls are active at the same time. Six calls for each nesting level are enough for every text,
however long it is (`Descent.call_eq`), and a text that opens a parenthesis on every level needs all
of them (`Descent.call_eq_none`). So `evaluateWithin_budget` gives the bound, and says that it is
the best.
-/

namespace Reckon

/-- The cursor in front of a parenthesis reads it. -/
theorem Cursor.next_opening (rest : List Char) (position : Nat) :
    next ⟨'(' :: rest, position⟩ = (⟨.opening, position⟩, ⟨rest, position + 1⟩) := rfl

namespace Descent

/-- Evaluates a text with recursive procedures. It comes to nothing if more calls are active at a
time than the budget pays for. -/
def evaluateWithin (budget : Nat) (source : String) (maxDepth : Nat) : Option Outcome :=
  (call budget .expression (.start source maxDepth)).map fun (outcome, s) =>
    outcome.bind (Session.checkEnd s.session.lookahead)

/-- The look-ahead is a parenthesis, and there is one more for each level that may be opened. -/
structure Opens (s : State) : Prop where
  lookahead : s.session.lookahead.token = .opening
  rest : ∃ more, s.session.cursor.rest =
    List.replicate (s.session.maxDepth - s.depth) '(' ++ more

/-- A text that begins with more parentheses than the limit opens too many. -/
theorem opens_start (maxDepth : Nat) (more : List Char) :
    Opens (.start (String.ofList (List.replicate (maxDepth + 1) '(' ++ more)) maxDepth) := by
  have hnext : (Cursor.start (List.replicate (maxDepth + 1) '(' ++ more)).next =
      (⟨.opening, 1⟩, ⟨List.replicate maxDepth '(' ++ more, 2⟩) :=
    Cursor.next_opening _ 1
  have hsession :
      Session.start (String.ofList (List.replicate (maxDepth + 1) '(' ++ more)) maxDepth =
        ⟨⟨.opening, 1⟩, ⟨List.replicate maxDepth '(' ++ more, 2⟩, maxDepth⟩ := by
    rw [Session.start, String.toList_ofList, hnext]
  refine ⟨?_, more, ?_⟩
  · rw [State.start, hsession]
  · rw [State.start, hsession]
    rfl

/-- The parentheses behind the first one are in front a level deeper. -/
theorem Opens.enter {s : State} (h : Opens s) (hroom : s.depth < s.session.maxDepth) :
    Opens s.advance.enter := by
  obtain ⟨more, hrest⟩ := h.rest
  obtain ⟨levels, hlevels⟩ : ∃ levels, s.session.maxDepth - s.depth = levels + 1 :=
    ⟨s.session.maxDepth - s.depth - 1, by omega⟩
  rw [hlevels] at hrest
  have hcursor : s.session.cursor =
      ⟨'(' :: (List.replicate levels '(' ++ more), s.session.cursor.position⟩ :=
    congrArg (Cursor.mk · s.session.cursor.position) hrest
  have hsession : s.session.advance =
      ⟨⟨.opening, s.session.cursor.position⟩,
        ⟨List.replicate levels '(' ++ more, s.session.cursor.position + 1⟩,
        s.session.maxDepth⟩ := by
    rw [Session.advance, hcursor, Cursor.next_opening]
  have hdeeper : s.session.maxDepth - (s.depth + 1) = levels := by omega
  refine ⟨?_, more, ?_⟩
  · show s.session.advance.lookahead.token = .opening
    rw [hsession]
  · show s.session.advance.cursor.rest =
      List.replicate (s.session.advance.maxDepth - (s.depth + 1)) '(' ++ more
    rw [hsession, ← hdeeper]

/-- With parentheses in front a procedure has each of the calls active that it may have, so a
smaller budget is used up. -/
theorem call_eq_none {budget : Nat} {procedure : Procedure} {s : State} (h : Opens s)
    (hbudget : budget < procedure.height + 6 * (s.session.maxDepth - s.depth)) :
    call budget procedure s = none := by
  induction budget generalizing procedure s with
  | zero => rfl
  | succ budget ih =>
    have hunary : s.session.lookahead.token.unaryOp? = none := by rw [h.lookahead]; rfl
    have hlater (q : Procedure) (hq : procedure.height = q.height + 1) : call budget q s = none :=
      ih h (by omega)
    cases procedure with
    | expression => exact bind_none (hlater .term rfl)
    | term => exact bind_none (hlater .factor rfl)
    | factor =>
      rw [call, lookahead_bind, hunary]
      exact hlater .power rfl
    | power => exact bind_none (hlater .primary rfl)
    | primary =>
      rw [call, lookahead_bind, h.lookahead]
      exact hlater .grouping rfl
    | grouping =>
      have hpaid : budget + 1 < 1 + 6 * (s.session.maxDepth - s.depth) := hbudget
      have hroom : s.depth < s.session.maxDepth := by omega
      have hdeeper : call budget .expression s.advance.enter = none := by
        refine ih (h.enter hroom) ?_
        show budget < 6 + 6 * (s.session.maxDepth - (s.depth + 1))
        omega
      rw [call, lookahead_bind, advance_bind]
      exact bind_none (nested_none hroom hdeeper)

/-- Six calls for each level are enough. -/
theorem evaluateWithin_eq (source : String) (maxDepth : Nat) {budget : Nat}
    (h : 6 * (maxDepth + 1) ≤ budget) :
    evaluateWithin budget source maxDepth = some (evaluateWith source maxDepth) := by
  obtain ⟨s, hcall, hsession, -⟩ :=
    call_eq .expression (s := .start source maxDepth) rfl (Nat.zero_le _) h
  have hcall : call budget .expression (.start source maxDepth) = _ := hcall
  rw [evaluateWithin, hcall, Option.map_some]
  dsimp only
  rw [hsession]
  rfl

/-- Fewer are not, where a text opens a parenthesis on each level. -/
theorem evaluateWithin_eq_none (maxDepth : Nat) (more : List Char) {budget : Nat}
    (h : budget < 6 * (maxDepth + 1)) :
    evaluateWithin budget (String.ofList (List.replicate (maxDepth + 1) '(' ++ more)) maxDepth =
      none := by
  have hbudget : budget < Procedure.expression.height + 6 * (maxDepth - 0) := by
    show budget < 6 + 6 * (maxDepth - 0)
    omega
  rw [evaluateWithin, call_eq_none (opens_start maxDepth more) hbudget]
  rfl

end Descent

/-- However long a text is, six active calls for each nesting level that may be open are enough to
evaluate it by recursive procedures, and what they come to is its outcome; any more make no
difference. No fewer are enough where a text opens a parenthesis on each level, whatever follows. -/
theorem evaluateWithin_budget (source : String) (maxDepth : Nat) :
    (∀ spare, Descent.evaluateWithin (6 * (maxDepth + 1) + spare) source maxDepth =
      some (evaluateWith source maxDepth)) ∧
    ∀ (budget : Nat) (more : List Char),
      Descent.evaluateWithin budget
          (String.ofList (List.replicate (maxDepth + 1) '(' ++ more)) maxDepth = none ↔
        budget < 6 * (maxDepth + 1) := by
  refine ⟨fun spare => Descent.evaluateWithin_eq source maxDepth (Nat.le_add_right _ spare),
    fun budget more => ⟨fun hnone => Nat.lt_of_not_le fun henough => ?_,
      Descent.evaluateWithin_eq_none maxDepth more⟩⟩
  rw [Descent.evaluateWithin_eq _ maxDepth henough] at hnone
  cases hnone

end Reckon
