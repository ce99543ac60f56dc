import Reckon.Proofs.Descent.Stack

/-!
# Sequences of calls

A session can be asked for one operand after the other, each of its own level, and goes on with what
is left, also behind errors. `Session.parses` is such a sequence of calls. Nothing but the place in
the text passes from one call to the next: `Session.parses_stream` says that the tokens are read
once each and in order, `Descent.parses_eq` that no nesting level stays open, and
`Session.Alike.parses` that all results depend on the tokens that are left and on the limit alone.
`parses_leave_nothing` joins these for the sessions of a text.
-/

namespace Reckon

/-- The tokens that are read, in order. -/
def lexings (events : List Event) : List Placed :=
  events.filterMap fun
    | .lexed t => some t
    | _ => none

/-- The tokens read in two pieces of a log are those of the first and then those of the second. -/
theorem lexings_append (events later : List Event) :
    lexings (events ++ later) = lexings events ++ lexings later :=
  List.filterMap_append

/-- Applying operators reads nothing. -/
theorem lexings_applied (as : List Application) (later : List Event) :
    lexings (as.map .applied ++ later) = lexings later := by
  rw [lexings_append]
  have hnone : lexings (as.map .applied) = [] := by
    rw [lexings, List.filterMap_map]
    exact List.filterMap_eq_nil_iff.2 fun _ _ => rfl
  rw [hnone, List.nil_append]

namespace Session

/-- Calls one after the other, also behind failures, and the session behind them. -/
def parses : List Level → Session → List Run × Session
  | [], s => ([], s)
  | goal :: goals, s =>
    let later := parses goals (s.parse goal).session
    (s.parse goal :: later.1, later.2)

/-- What sequences of calls come to: their outcomes and events. -/
def results (goals : List Level) (s : Session) : List (Outcome × List Event) :=
  (s.parses goals).1.map fun r => (r.outcome, r.events)

/-- An evaluation does not change the limit. -/
theorem run_maxDepth (e : Evaluation) (s : Session) : (s.run e).session.maxDepth = s.maxDepth := by
  fun_induction run e s with
  | case1 e s applied next hreact r ih => exact ih
  | case2 | case3 => rfl

/-! ## Tokens -/

/-- A run takes tokens off the stream and reads, behind each of them, the next one. -/
theorem run_stream (e : Evaluation) (s : Session) :
    ∃ taken, s.stream = taken ++ (s.run e).session.stream ∧
      s.lookahead :: lexings (s.run e).events = taken ++ [(s.run e).session.lookahead] := by
  fun_induction run e s with
  | case1 e s applied next hreact r ih =>
    obtain ⟨taken, hstream, hread⟩ := ih
    have hopen := lookahead_ne_finish hreact fun _ hstop => by cases hstop
    refine ⟨s.lookahead :: taken, ?_, ?_⟩
    · rw [stream_eq_cons hopen, hstream, List.cons_append]
    · rw [lexings_applied, List.cons_append, ← hread]
      rfl
  | case2 e s applied error hreact =>
    have hopen := lookahead_ne_finish hreact fun _ hstop => by cases hstop
    refine ⟨[s.lookahead], stream_eq_cons hopen, ?_⟩
    rw [lexings_applied]
    rfl
  | case3 e s applied outcome hreact =>
    refine ⟨[], rfl, ?_⟩
    have hnone := lexings_applied applied []
    rw [List.append_nil] at hnone
    rw [hnone]
    rfl

/-- So does a sequence of calls: the tokens that are read are those of the stream, each once and in
order, as far as the look-ahead that is left. -/
theorem parses_stream (goals : List Level) (s : Session) :
    ∃ taken, s.stream = taken ++ (s.parses goals).2.stream ∧
      s.lookahead :: lexings ((s.parses goals).1.flatMap Run.events) =
        taken ++ [(s.parses goals).2.lookahead] := by
  induction goals generalizing s with
  | nil => exact ⟨[], rfl, rfl⟩
  | cons goal goals ih =>
    obtain ⟨taken, hstream, hread⟩ := s.run_stream (.start goal s.maxDepth)
    obtain ⟨later, hlater, hreadLater⟩ := ih (s.parse goal).session
    refine ⟨taken ++ later, ?_, ?_⟩
    · rw [hstream, List.append_assoc]
      exact congrArg _ hlater
    · rw [parses, List.flatMap_cons, lexings_append, ← List.cons_append, List.append_assoc,
        ← hreadLater]
      show s.lookahead :: lexings (s.run (.start goal s.maxDepth)).events ++ _ = _
      rw [hread, List.append_assoc]
      rfl

/-- Calls do not change the limit. -/
theorem parses_maxDepth (goals : List Level) (s : Session) :
    (s.parses goals).2.maxDepth = s.maxDepth := by
  induction goals generalizing s with
  | nil => rfl
  | cons goal goals ih => exact (ih _).trans (run_maxDepth _ s)

/-! ## Sessions with the same tokens left -/

/-- The same tokens are left, under the same limit. -/
structure Alike (s s' : Session) : Prop where
  stream : s.stream = s'.stream
  maxDepth : s.maxDepth = s'.maxDepth

section
variable {s s' : Session}

/-- Sessions with the same tokens left look at the same token. -/
theorem Alike.lookahead_eq (h : s.Alike s') : s.lookahead = s'.lookahead := by
  obtain ⟨ts, hts⟩ := s.exists_stream_eq
  obtain ⟨ts', hts'⟩ := s'.exists_stream_eq
  have hstream := h.stream
  rw [hts, hts'] at hstream
  injection hstream

/-- Taking a token leaves sessions that had the same tokens left with the same tokens. -/
theorem Alike.advance (h : s.Alike s') (hopen : s.lookahead.token ≠ .finish) :
    s.advance.Alike s'.advance := by
  have hs := stream_eq_cons hopen
  have hs' := stream_eq_cons (s := s') (h.lookahead_eq ▸ hopen)
  rw [h.stream, hs'] at hs
  injection hs with _ hrest
  exact ⟨hrest.symm, h.maxDepth⟩

/-- Runs over the same tokens are the same, and leave the same tokens. -/
theorem Alike.run (h : s.Alike s') (e : Evaluation) :
    (s.run e).outcome = (s'.run e).outcome ∧ (s.run e).events = (s'.run e).events ∧
      (s.run e).session.Alike (s'.run e).session := by
  fun_induction Session.run e s generalizing s' with
  | case1 e s applied next hreact r =>
    rename_i ih
    have hopen := lookahead_ne_finish hreact fun _ hstop => by cases hstop
    have hnext := h.advance hopen
    obtain ⟨houtcome, hevents, hsession⟩ := ih hnext
    rw [h.lookahead_eq] at hreact
    rw [run_proceed hreact]
    refine ⟨houtcome, ?_, hsession⟩
    show _ ++ _ :: r.events = _
    rw [hevents, hnext.lookahead_eq]
  | case2 e s applied error hreact =>
    have hopen := lookahead_ne_finish hreact fun _ hstop => by cases hstop
    have hnext := h.advance hopen
    rw [h.lookahead_eq] at hreact
    rw [run_refuse hreact, hnext.lookahead_eq]
    exact ⟨rfl, rfl, hnext⟩
  | case3 e s applied outcome hreact =>
    rw [h.lookahead_eq] at hreact
    rw [run_stop hreact]
    exact ⟨rfl, rfl, h⟩

/-- A call has the same outcome and the same events in sessions with the same tokens left. -/
theorem Alike.parse (h : s.Alike s') (goal : Level) :
    (s.parse goal).outcome = (s'.parse goal).outcome ∧
      (s.parse goal).events = (s'.parse goal).events ∧
      (s.parse goal).session.Alike (s'.parse goal).session := by
  unfold Session.parse
  rw [← h.maxDepth]
  exact h.run _

/-- Sequences of calls over the same tokens come to the same, and leave the same tokens. -/
theorem Alike.parses (h : s.Alike s') (goals : List Level) :
    s.results goals = s'.results goals ∧ (s.parses goals).2.Alike (s'.parses goals).2 := by
  induction goals generalizing s s' with
  | nil => exact ⟨rfl, h⟩
  | cons goal goals ih =>
    obtain ⟨houtcome, hevents, hsession⟩ := h.parse goal
    obtain ⟨hresults, hlater⟩ := ih hsession
    refine ⟨?_, hlater⟩
    show (_, _) :: results goals _ = (_, _) :: results goals _
    rw [houtcome, hevents, hresults]

/-- So does evaluating all that is left. -/
theorem Alike.finish (h : s.Alike s') :
    s.finish.outcome = s'.finish.outcome ∧ s.finish.events = s'.finish.events := by
  obtain ⟨houtcome, hevents, hsession⟩ := h.parse .expression
  have hend : s.finish.outcome = s'.finish.outcome := by
    show Except.bind _ _ = Except.bind _ _
    rw [houtcome, hsession.lookahead_eq]
  refine ⟨hend, ?_⟩
  show _ ++ [closing s.finish.outcome] = _ ++ [closing s'.finish.outcome]
  rw [hend, hevents]

end

end Session

/-! ## Open levels -/

/-- Recursive calls come to what the sessions come to; between them no level is open, and never are
more open than the limit says. -/
theorem Descent.parses_eq (goals : List Level) {s : State} (hdepth : s.depth = 0)
    (hdeepest : s.deepest ≤ s.session.maxDepth) :
    ∃ s', parses goals s = some ((s.session.parses goals).1.map Run.outcome, s') ∧
      s'.session = (s.session.parses goals).2 ∧ s'.depth = 0 ∧
      s'.deepest ≤ s.session.maxDepth := by
  induction goals generalizing s with
  | nil => exact ⟨s, rfl, rfl, hdepth, hdeepest⟩
  | cons goal goals ih =>
    obtain ⟨s', hparse, hsession, hdepth', hmax, hdeepest'⟩ := parse_eq goal hdepth hdeepest
    obtain ⟨r, hparses, hlast, hdepthLast, hdeepestLast⟩ := ih hdepth' hdeepest'
    rw [hsession] at hparses hlast
    refine ⟨r, ?_, hlast, hdepthLast, hmax ▸ hdeepestLast⟩
    simp only [parses, hparse, hparses, Option.bind_eq_bind, Option.bind_some]
    rfl

/-! ## Texts -/

/-- No call leaves anything behind but the place in the text. Whatever calls are made on a session
of a text, and whether they fail or not: recursive procedures make the same calls with the same
outcomes, no nesting level stays open between calls, and within them no more than the limit; the
tokens of the text are read once each and in order, and the look-ahead is the first that is not
taken. So what is left of the text and the limit decide about all further calls and about the
evaluation of the rest. -/
theorem parses_leave_nothing (source : String) (maxDepth : Nat) (goals : List Level) :
    (∃ s, Descent.parses goals (.start source maxDepth) =
        some (((Session.start source maxDepth).parses goals).1.map Run.outcome, s) ∧
      s.session = ((Session.start source maxDepth).parses goals).2 ∧ s.depth = 0 ∧
      s.deepest ≤ maxDepth) ∧
    (∃ taken rest,
      tokens source =
        taken ++ ((Session.start source maxDepth).parses goals).2.lookahead :: rest ∧
      ((Session.start source maxDepth).parses goals).2.stream =
        ((Session.start source maxDepth).parses goals).2.lookahead :: rest ∧
      (Session.start source maxDepth).lookahead ::
          lexings (((Session.start source maxDepth).parses goals).1.flatMap Run.events) =
        taken ++ [((Session.start source maxDepth).parses goals).2.lookahead]) ∧
    ∀ (other : String) (earlier : List Level),
      ((Session.start other maxDepth).parses earlier).2.stream =
        ((Session.start source maxDepth).parses goals).2.stream →
      ∀ later,
        ((Session.start other maxDepth).parses earlier).2.results later =
          ((Session.start source maxDepth).parses goals).2.results later ∧
        (((Session.start other maxDepth).parses earlier).2.parses later).2.finish.outcome =
          (((Session.start source maxDepth).parses goals).2.parses later).2.finish.outcome := by
  refine ⟨?_, ?_, fun other earlier hstream later => ?_⟩
  · exact Descent.parses_eq (s := .start source maxDepth) goals rfl (Nat.zero_le _)
  · obtain ⟨taken, hstream, hread⟩ := (Session.start source maxDepth).parses_stream goals
    obtain ⟨rest, hrest⟩ := ((Session.start source maxDepth).parses goals).2.exists_stream_eq
    rw [Session.stream_start, hrest] at hstream
    exact ⟨taken, rest, hstream, hrest, hread⟩
  · have halike : ((Session.start other maxDepth).parses earlier).2.Alike
        ((Session.start source maxDepth).parses goals).2 :=
      ⟨hstream, by rw [Session.parses_maxDepth, Session.parses_maxDepth]; rfl⟩
    obtain ⟨hresults, hlater⟩ := halike.parses later
    exact ⟨hresults, hlater.finish.1⟩

end Reckon
