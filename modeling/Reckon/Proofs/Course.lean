import Reckon.Proofs.Stream

/-!
# The course of an evaluation

`Evaluation.course` is what an evaluation makes of a list of tokens: its outcome, with the end of
the text checked, and the events on the way, from the token that is read first. It knows neither the
text nor the place in it. Evaluating a text is the course of an evaluation over the tokens of the
text (`trace_eq_course`), so what is said of courses by induction on the tokens holds of texts.
-/

namespace Reckon

namespace Evaluation

/-- What an evaluation makes of the tokens that are left: its outcome and its events. A list that
breaks off before the evaluation has come to its outcome lacks an operand or a `Token.finish`. -/
def course (e : Evaluation) : List Placed → Outcome × List Event
  | [] => (.error ⟨.unexpectedToken, 0⟩, [])
  | t :: ts =>
    match e.react t with
    | ⟨applied, .proceed next⟩ =>
      let later := course next ts
      (later.1, .lexed t :: (applied.map .applied ++ later.2))
    | ⟨applied, .refuse error⟩ =>
      (.error error, .lexed t :: (applied.map .applied ++ (ts.take 1).map .lexed))
    | ⟨applied, .stop outcome⟩ =>
      (outcome.bind (Session.checkEnd t), .lexed t :: applied.map .applied)

section
variable {e next : Evaluation} {t : Placed} {applied : List Application}

/-- A token that the evaluation goes on with is followed by the course of the next state. -/
theorem course_proceed (h : e.react t = ⟨applied, .proceed next⟩) (ts : List Placed) :
    e.course (t :: ts) =
      ((next.course ts).1, .lexed t :: (applied.map .applied ++ (next.course ts).2)) := by
  rw [course, h]

/-- Where a token is refused, that is the outcome, and one token more has been read. -/
theorem course_refuse {error : EvalError} (h : e.react t = ⟨applied, .refuse error⟩)
    (ts : List Placed) :
    e.course (t :: ts) =
      (.error error, .lexed t :: (applied.map .applied ++ (ts.take 1).map .lexed)) := by
  rw [course, h]

/-- Where a token stops the evaluation, its outcome stands unless something is behind it. -/
theorem course_stop {outcome : Outcome} (h : e.react t = ⟨applied, .stop outcome⟩)
    (ts : List Placed) :
    e.course (t :: ts) =
      (outcome.bind (Session.checkEnd t), .lexed t :: applied.map .applied) := by
  rw [course, h]

/-- The outcome of a course depends on the verdicts alone. -/
theorem outcome_proceed (h : (e.react t).verdict = .proceed next) (ts : List Placed) :
    (e.course (t :: ts)).1 = (next.course ts).1 := by
  rw [course_proceed (congrArg (Reaction.mk (e.react t).applied) h)]

/-- The outcome of a course that refuses a token is the error. -/
theorem outcome_refuse {error : EvalError} (h : (e.react t).verdict = .refuse error)
    (ts : List Placed) : (e.course (t :: ts)).1 = .error error := by
  rw [course_refuse (congrArg (Reaction.mk (e.react t).applied) h)]

/-- The outcome of a course that a token stops is that of the evaluation, unless something is behind
it. -/
theorem outcome_stop {outcome : Outcome} (h : (e.react t).verdict = .stop outcome)
    (ts : List Placed) : (e.course (t :: ts)).1 = outcome.bind (Session.checkEnd t) := by
  rw [course_stop (congrArg (Reaction.mk (e.react t).applied) h)]

/-- A token that is taken is neither the end of the text nor an invalid character. -/
theorem token_ne_of_taken {verdict : Verdict} (h : (e.react t).verdict = verdict)
    (htaken : ∀ outcome, verdict ≠ .stop outcome) :
    t.token ≠ .finish ∧ t.token ≠ .invalid := by
  rw [← not_or]
  intro ht
  obtain ⟨outcome, hstop⟩ := react_stops ht e
  rw [h] at hstop
  exact htaken outcome hstop

/-- The end of the text stands behind every token that is taken. -/
theorem exists_finish_of_taken {verdict : Verdict} {ts : List Placed}
    (h : (e.react t).verdict = verdict) (htaken : ∀ outcome, verdict ≠ .stop outcome)
    (hfinish : ∃ u ∈ t :: ts, u.token = .finish) : ∃ u ∈ ts, u.token = .finish := by
  obtain ⟨u, hu, hutok⟩ := hfinish
  rcases List.mem_cons.1 hu with rfl | hu
  · exact absurd hutok (token_ne_of_taken h htaken).1
  · exact ⟨u, hu, hutok⟩

end

end Evaluation

/-- A value is that of a whole text only at its end. -/
theorem Session.bind_checkEnd_eq_ok {outcome : Outcome} {t : Placed} {value : Float}
    (h : outcome.bind (checkEnd t) = .ok value) : outcome = .ok value ∧ t.token = .finish := by
  cases outcome with
  | error e => cases h
  | ok result =>
    replace h : checkEnd t result = .ok value := h
    unfold checkEnd at h
    split at h
    · next hfinish =>
      cases h
      exact ⟨rfl, hfinish⟩
    · cases h
    · cases h

/-- A session takes the course over its stream. -/
theorem Session.course_stream (e : Evaluation) (s : Session) :
    e.course s.stream =
      ((s.run e).outcome.bind (checkEnd (s.run e).session.lookahead),
        .lexed s.lookahead :: (s.run e).events) := by
  fun_induction Session.run e s with
  | case1 e s applied next hreact r ih =>
    have hopen := lookahead_ne_finish hreact fun _ hstop => by cases hstop
    rw [stream_eq_cons hopen, Evaluation.course_proceed hreact, ih]
  | case2 e s applied error hreact =>
    have hopen := lookahead_ne_finish hreact fun _ hstop => by cases hstop
    obtain ⟨ts, hts⟩ := s.advance.exists_stream_eq
    rw [stream_eq_cons hopen, Evaluation.course_refuse hreact, hts]
    rfl
  | case3 e s applied outcome hreact =>
    obtain ⟨ts, hts⟩ := s.exists_stream_eq
    rw [hts, Evaluation.course_stop hreact]

/-- Evaluating a text is the course of an evaluation over its tokens, and one event more that closes
it. -/
theorem trace_eq_course (source : String) (maxDepth : Nat) :
    trace source maxDepth =
      (((Evaluation.start .expression maxDepth).course (tokens source)).1,
        ((Evaluation.start .expression maxDepth).course (tokens source)).2 ++
          [Session.closing
            ((Evaluation.start .expression maxDepth).course (tokens source)).1]) := by
  rw [← Session.stream_start source maxDepth, Session.course_stream]
  rfl

/-- Evaluating a text is the course of an evaluation over its tokens. -/
theorem evaluateWith_eq_course (source : String) (maxDepth : Nat) :
    evaluateWith source maxDepth =
      ((Evaluation.start .expression maxDepth).course (tokens source)).1 := by
  rw [evaluateWith, trace_eq_course]

end Reckon
