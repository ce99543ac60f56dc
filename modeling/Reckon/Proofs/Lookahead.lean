import Reckon.Proofs.Calls
import Reckon.Proofs.Course
import Reckon.Proofs.Parsing.Completeness
import Reckon.Proofs.TwoPhase

/-!
# One token of look-ahead

An evaluation reads its text up to the token at which its outcome is decided and no further. What is
read is a beginning of the tokens (`Evaluation.course_reads`), and it alone decides about the
outcome and the events (`Evaluation.course_congr`): texts that begin with the same tokens are
evaluated alike, whatever follows.

An operator is applied as soon as the look-ahead shows that its right operand is complete.
`Application.EndsBefore` says so of one application and the tokens that are read, and a failing
application comes to that (`Parsing.Tracks.course_failing`). `trace_reads_one_ahead` joins these
for the evaluation of a text.
-/

namespace Reckon

/-! ## The events of a course -/

namespace Evaluation

section
variable {e next : Evaluation} {t : Placed} {applied : List Application}

/-- Where the evaluation goes on, the token has been read, and then those of the next state. -/
theorem lexings_course_proceed (h : e.react t = ⟨applied, .proceed next⟩) (ts : List Placed) :
    lexings (e.course (t :: ts)).2 = t :: lexings (next.course ts).2 := by
  rw [course_proceed h]
  exact congrArg (t :: ·) (lexings_applied applied _)

/-- Where a token is refused, one more has been read. -/
theorem lexings_course_refuse {error : EvalError} (h : e.react t = ⟨applied, .refuse error⟩)
    (ts : List Placed) : lexings (e.course (t :: ts)).2 = t :: ts.take 1 := by
  rw [course_refuse h]
  have htake : lexings ((ts.take 1).map .lexed) = ts.take 1 := by
    rw [lexings, List.filterMap_map]
    exact List.filterMap_some
  exact congrArg (t :: ·) ((lexings_applied applied _).trans htake)

/-- Where a token stops the evaluation, no more than that has been read. -/
theorem lexings_course_stop {outcome : Outcome} (h : e.react t = ⟨applied, .stop outcome⟩)
    (ts : List Placed) : lexings (e.course (t :: ts)).2 = [t] := by
  rw [course_stop h, ← List.append_nil (applied.map Event.applied)]
  exact congrArg (t :: ·) (lexings_applied applied [])

/-- Where the evaluation goes on, its applications come before those of the next state. -/
theorem applications_course_proceed (h : e.react t = ⟨applied, .proceed next⟩)
    (ts : List Placed) :
    applications (e.course (t :: ts)).2 = applied ++ applications (next.course ts).2 := by
  rw [course_proceed h]
  exact applications_applied_append applied _

/-- Where a token is refused, nothing more is applied. -/
theorem applications_course_refuse {error : EvalError} (h : e.react t = ⟨applied, .refuse error⟩)
    (ts : List Placed) : applications (e.course (t :: ts)).2 = applied := by
  rw [course_refuse h]
  have hnone : applications ((ts.take 1).map .lexed) = [] := by
    rw [applications, List.filterMap_map]
    exact List.filterMap_eq_nil_iff.2 fun _ _ => rfl
  refine (applications_applied_append applied _).trans ?_
  rw [hnone, List.append_nil]

/-- Where a token stops the evaluation, nothing more is applied. -/
theorem applications_course_stop {outcome : Outcome} (h : e.react t = ⟨applied, .stop outcome⟩)
    (ts : List Placed) : applications (e.course (t :: ts)).2 = applied := by
  rw [course_stop h]
  exact applications_applied applied

end

/-! ## What is read -/

/-- The tokens that are read are the first ones of the list, and all but the last of them are
taken. -/
theorem course_reads {ts : List Placed} (hfinish : ∃ t ∈ ts, t.token = .finish) (e : Evaluation) :
    ∃ taken last, lexings (e.course ts).2 = taken ++ [last] ∧ taken ++ [last] <+: ts ∧
      ∀ t ∈ taken, t.token ≠ .finish ∧ t.token ≠ .invalid := by
  induction ts generalizing e with
  | nil => simp at hfinish
  | cons t ts ih =>
    rcases hreact : e.react t with ⟨applied, verdict⟩
    have hverdict : (e.react t).verdict = verdict := congrArg Reaction.verdict hreact
    cases verdict with
    | proceed next =>
      obtain ⟨taken, last, hread, hprefix, htaken⟩ :=
        ih (exists_finish_of_taken hverdict nofun hfinish) next
      refine ⟨t :: taken, last, ?_, (List.prefix_cons_inj t).2 hprefix, ?_⟩
      · rw [lexings_course_proceed hreact, hread, List.cons_append]
      · intro u hu
        rcases List.mem_cons.1 hu with rfl | hu
        · exact token_ne_of_taken hverdict nofun
        · exact htaken u hu
    | refuse error =>
      obtain ⟨u, hu, -⟩ := exists_finish_of_taken hverdict nofun hfinish
      obtain ⟨last, after, rfl⟩ := List.exists_cons_of_ne_nil (List.ne_nil_of_mem hu)
      refine ⟨[t], last, lexings_course_refuse hreact _, ⟨after, rfl⟩, fun v hv => ?_⟩
      rw [List.mem_singleton.1 hv]
      exact token_ne_of_taken hverdict nofun
    | stop outcome => exact ⟨[], t, lexings_course_stop hreact ts, ⟨ts, rfl⟩, nofun⟩

/-- What is not read makes no difference. -/
theorem course_congr {ts us : List Placed} (hfinish : ∃ t ∈ ts, t.token = .finish) (e : Evaluation)
    (h : lexings (e.course ts).2 <+: us) : e.course us = e.course ts := by
  induction ts generalizing e us with
  | nil => simp at hfinish
  | cons t ts ih =>
    rcases hreact : e.react t with ⟨applied, verdict⟩
    have hverdict : (e.react t).verdict = verdict := congrArg Reaction.verdict hreact
    cases verdict with
    | proceed next =>
      have htail := exists_finish_of_taken hverdict nofun hfinish
      rw [lexings_course_proceed hreact] at h
      obtain ⟨rest, rfl⟩ := h
      rw [List.cons_append, course_proceed hreact, course_proceed hreact,
        ih htail next (List.prefix_append _ rest)]
    | refuse error =>
      obtain ⟨u, hu, -⟩ := exists_finish_of_taken hverdict nofun hfinish
      obtain ⟨last, after, rfl⟩ := List.exists_cons_of_ne_nil (List.ne_nil_of_mem hu)
      rw [lexings_course_refuse hreact] at h
      obtain ⟨rest, rfl⟩ := h
      rw [List.cons_append, course_refuse hreact, course_refuse hreact]
      rfl
    | stop outcome =>
      rw [lexings_course_stop hreact] at h
      obtain ⟨rest, rfl⟩ := h
      exact (course_stop hreact _).trans (course_stop hreact _).symm

end Evaluation

/-! ## Where an application fails -/

/-- The application is that of an operator whose right operand is complete at the last of the
tokens: the operator and its operands stand right before that token, and no operand of its level
goes on with it. -/
def Application.EndsBefore (a : Application) (ts : List Placed) : Prop :=
  ∃ before op left position right last,
    ts = before ++ (Expr.binary op left position right).tokens ++ [last] ∧
    (Expr.binary op left position right).application? = some a ∧
    Derives op.leftLevel left ∧ Derives op.rightLevel right ∧
    ∀ longer rest, Derives op.rightLevel longer → longer.tokens ≠ right.tokens ++ last :: rest

/-- Applying operators comes to the failure of each of them that fails. -/
theorem Performs.of_mem {xs : List Expr} {as : List Application} {failure : Option EvalError}
    (h : Performs xs as failure) {a : Application} (ha : a ∈ as) {e : EvalError}
    (hfail : a.outcome = .error e) :
    failure = some e ∧ ∃ done y later, xs = done ++ y :: later ∧ y.application? = some a := by
  induction h with
  | nil => cases ha
  | @cons x _ _ _ _ _ _ hvalue _ ih =>
    rcases List.mem_cons.1 ha with rfl | ha
    · cases hfail.symm.trans hvalue
    · obtain ⟨hfailure, done, y, later, rfl, hy⟩ := ih ha
      exact ⟨hfailure, x :: done, y, later, rfl, hy⟩
  | @fail x xs _ _ hx herror =>
    cases List.mem_singleton.1 ha
    cases hfail.symm.trans herror
    exact ⟨rfl, [], x, xs, rfl, hx⟩

namespace Parsing

section
variable {goal : Level} {maxDepth : Nat} {t : Placed} {ts : List Placed} {ops : List Expr}
  {frames rest : List Frame} {x y z : Expr} {a : Application} {e : EvalError}

/-- An operator that is completed on the way waits on top of the frames before that. -/
theorem Pops.split {done later : List Expr} (h : Pops goal t frames x (done ++ y :: later) rest z) :
    ∃ f below w, Pops goal t frames x done (f :: below) w ∧ f.complete? w = some y ∧
      Evaluation.continues? (awaited goal (f :: below)) t.token = none := by
  induction done generalizing frames x with
  | nil =>
    cases h with
    | cons hy hc _ => exact ⟨_, _, _, .nil, hy, hc⟩
  | cons d done ih =>
    cases h with
    | cons hd hc hrest =>
      obtain ⟨f, below, w, hpops, hy, hcont⟩ := ih hrest
      exact ⟨f, below, w, .cons hd hc hpops, hy, hcont⟩

/-- An operator that fails once its last operand is complete has two operands, and they are the last
ones that were taken. -/
theorem Ready.endsBefore {f : Frame} {below : List Frame}
    (h : Ready goal maxDepth t ts ops (f :: below) x) (hy : f.complete? x = some y)
    (hc : Evaluation.continues? (awaited goal (f :: below)) t.token = none)
    (ha : y.application? = some a) (hfail : a.outcome = .error e) : a.EndsBefore (ts ++ [t]) := by
  obtain ⟨hfits, hderives, -, htokens, -, -⟩ := h
  cases hfits with
  | group => cases hy
  | unary =>
    cases hy
    simp only [Expr.application?] at ha
    split at ha
    · cases ha
      cases hfail
    · cases ha
  | @binary _ op left position hbelow _ hleft =>
    cases hy
    refine ⟨tokensOf below, op, left, position, x, t, ?_, ha, hleft, hderives,
      fun longer rest hlonger => hderives.not_extends hc hlonger⟩
    rw [← htokens, tokensOf, Frame.tokens, Expr.tokens]
    simp

/-- Where a turn applies an operator and that fails, its right operand is complete at the token of
the turn. -/
theorem After.endsBefore {p : Parsing} (h : After goal maxDepth ts ops p) {done later : List Expr}
    (hcompleted : (Parsing.react goal maxDepth p t).completed = done ++ y :: later)
    (ha : y.application? = some a) (hfail : a.outcome = .error e) : a.EndsBefore (ts ++ [t]) := by
  obtain ⟨frames, operand⟩ := p
  cases operand with
  | none => simp at hcompleted
  | some x =>
    obtain ⟨completed, move, hsettles, hsettle⟩ := settle_settles goal t frames x
    rw [react_some, hsettle] at hcompleted
    subst hcompleted
    obtain ⟨rest, z, hpops⟩ := hsettles.pops
    obtain ⟨f, below, w, hdone, hy, hc⟩ := hpops.split
    exact ((h.ready t).pops hdone).endsBefore hy hc ha hfail

end

/-- A failing application ends an evaluation that has read one token behind its right operand. -/
theorem Tracks.course_failing {goal : Level} {maxDepth : Nat} {p : Parsing} {e : Evaluation}
    {us : List Placed} {ops : List Expr} (htracks : Tracks goal maxDepth p e)
    (hafter : After goal maxDepth us ops p) {ts : List Placed} {a : Application} {error : EvalError}
    (ha : a ∈ applications (e.course ts).2) (hfail : a.outcome = .error error) :
    (e.course ts).1 = .error error ∧ a.EndsBefore (us ++ lexings (e.course ts).2) := by
  induction ts generalizing p e us ops with
  | nil => cases ha
  | cons t ts ih =>
    rcases hreact : e.react t with ⟨applied, verdict⟩
    obtain ⟨completed, move, hturn, hagrees⟩ := htracks.exists_turn hreact
    cases hagrees with
    | failed hperforms hverdict =>
      dsimp only at hverdict
      subst hverdict
      rw [Evaluation.applications_course_stop hreact] at ha
      obtain ⟨hfailure, done, y, later, hcompleted, hy⟩ := hperforms.of_mem ha hfail
      cases hfailure
      rw [Evaluation.lexings_course_stop hreact, Evaluation.course_stop hreact]
      exact ⟨rfl, hafter.endsBefore (by rw [hturn]; exact hcompleted) hy hfail⟩
    | done hperforms hmove =>
      have happlied : a ∉ applied := by
        intro hmem
        cases (hperforms.of_mem hmem hfail).1
      cases hmove with
      | shift htracks' =>
        rw [Evaluation.applications_course_proceed hreact] at ha
        obtain ⟨houtcome, hends⟩ := ih htracks' (hafter.react hturn)
          ((List.mem_append.1 ha).resolve_left happlied)
        rw [Evaluation.lexings_course_proceed hreact, List.append_cons]
        exact ⟨by rw [Evaluation.course_proceed hreact, houtcome], hends⟩
      | refuse =>
        rw [Evaluation.applications_course_refuse hreact] at ha
        exact absurd ha happlied
      | accept | reject =>
        rw [Evaluation.applications_course_stop hreact] at ha
        exact absurd ha happlied

end Parsing

/-! ## Texts -/

/-- The event that closes an evaluation reads nothing. -/
theorem lexings_closing (events : List Event) (outcome : Outcome) :
    lexings (events ++ [Session.closing outcome]) = lexings events := by
  rw [lexings_append]
  cases outcome <;> exact List.append_nil _

/-- The first error is reported and nothing behind it is looked at. The tokens that are read are the
first ones of the text, and none but the last of them is the end or invalid. Every text that begins
with the same tokens is evaluated alike, with the same events, under the same limit. And a failing
application is reported when one token behind the right operand of its operator has been read. -/
theorem trace_reads_one_ahead (source : String) (maxDepth : Nat) :
    lexings (trace source maxDepth).2 <+: tokens source ∧
    (∀ t ∈ (lexings (trace source maxDepth).2).dropLast,
      t.token ≠ .finish ∧ t.token ≠ .invalid) ∧
    (∀ other : String,
      (tokens other).take (lexings (trace source maxDepth).2).length =
        (tokens source).take (lexings (trace source maxDepth).2).length →
      trace other maxDepth = trace source maxDepth) ∧
    ∀ a ∈ applications (trace source maxDepth).2, ∀ e, a.outcome = .error e →
      evaluateWith source maxDepth = .error e ∧
        a.EndsBefore (lexings (trace source maxDepth).2) := by
  have hfinish := exists_finish_mem_tokens source
  have htrace := trace_eq_course source maxDepth
  have hlexings : lexings (trace source maxDepth).2 =
      lexings ((Evaluation.start .expression maxDepth).course (tokens source)).2 := by
    rw [htrace, lexings_closing]
  have happlications : applications (trace source maxDepth).2 =
      applications ((Evaluation.start .expression maxDepth).course (tokens source)).2 := by
    rw [htrace, applications_closing]
  obtain ⟨taken, last, hread, hprefix, htaken⟩ :=
    Evaluation.course_reads hfinish (.start .expression maxDepth)
  rw [hlexings, happlications, evaluateWith_eq_course]
  refine ⟨hread ▸ hprefix, ?_, fun other hother => ?_, fun a ha e hfail => ?_⟩
  · rw [hread, List.dropLast_concat]
    exact htaken
  · have hsame : lexings ((Evaluation.start .expression maxDepth).course (tokens source)).2 <+:
        tokens other := by
      have htake := List.prefix_iff_eq_take.1 (hread ▸ hprefix)
      rw [htake, ← hother]
      exact List.take_prefix _ _
    rw [trace_eq_course other, Evaluation.course_congr hfinish _ hsame, htrace]
  · exact Parsing.Tracks.course_failing (.wants .nil) .start ha hfail

/-- The quotient fails at the sign behind it, and what follows is not read. -/
theorem trace_reads_one_ahead_quotient :
    (lexings (trace "1/0+2" 0).2).length = 4 ∧ trace "1/0+) ?" 0 = trace "1/0+2" 0 ∧
      ∃ a ∈ applications (trace "1/0+2" 0).2, a.outcome = .error ⟨.divisionByZero, 2⟩ ∧
        evaluateWith "1/0+2" 0 = .error ⟨.divisionByZero, 2⟩ ∧
        a.EndsBefore (lexings (trace "1/0+2" 0).2) := by
  obtain ⟨-, -, hsame, hfails⟩ := trace_reads_one_ahead "1/0+2" 0
  have hfailing : ∃ a ∈ applications (trace "1/0+2" 0).2,
      a.outcome = .error ⟨.divisionByZero, 2⟩ := by decide +kernel
  obtain ⟨a, ha, houtcome⟩ := hfailing
  obtain ⟨herror, hends⟩ := hfails a ha _ houtcome
  exact ⟨by decide +kernel, hsame _ (by decide +kernel), a, ha, houtcome, herror, hends⟩

end Reckon
