import Mathlib.Data.List.Forall2
import Reckon.Proofs.Parsing.Soundness
import Reckon.Proofs.Stream

/-!
# Computing while parsing is parsing first and computing afterwards

`parseText` parses a text without computing, and lists its operators in the order in which their
last operand is complete. `evaluateWith` applies exactly these operators in this order, each to the
values of its own operands, up to the first that fails: `Performs` is this relation between a list
of operators and a list of applications. Only where none fails does the end of the parse decide.

An evaluation runs in step with a parse. Its stack holds the values of what the frames hold as trees
(`Frame.Holds`), its turns are those of the parse (`Parsing.Tracks.agrees_react`), and so are its
runs (`Session.run_realises`).
-/

namespace Reckon

/-! ## Applying operators in order -/

/-- Applying the operators of the expressions in order, each to the values of its own operands, up
to and including the first that fails. -/
inductive Performs : List Expr → List Application → Option EvalError → Prop
  | nil : Performs [] [] none
  | cons {x : Expr} {xs : List Expr} {a : Application} {as : List Application} {value : Float}
      {failure : Option EvalError} :
      x.application? = some a → a.outcome = .ok value → Performs xs as failure →
      Performs (x :: xs) (a :: as) failure
  | fail {x : Expr} {xs : List Expr} {a : Application} {e : EvalError} :
      x.application? = some a → a.outcome = .error e → Performs (x :: xs) [a] (some e)

/-- Operators that are applied without failure are followed by those behind them. -/
theorem Performs.append {xs ys : List Expr} {as bs : List Application}
    {failure : Option EvalError} (h : Performs xs as none) (h' : Performs ys bs failure) :
    Performs (xs ++ ys) (as ++ bs) failure := by
  generalize hnone : none = before at h
  induction h with
  | nil => exact h'
  | cons hx ha _ ih => exact .cons hx ha (ih hnone)
  | fail => cases hnone

/-- Behind a failure nothing is applied. -/
theorem Performs.append_of_failure {xs : List Expr} {as : List Application} {e : EvalError}
    (h : Performs xs as (some e)) (ys : List Expr) : Performs (xs ++ ys) as (some e) := by
  generalize hsome : some e = failure at h
  induction h with
  | nil => cases hsome
  | cons hx ha _ ih => exact .cons hx ha (ih hsome)
  | fail hx ha =>
    cases hsome
    exact .fail hx ha

/-- What is applied, and whether it fails, is determined by the operators. -/
theorem Performs.unique {xs : List Expr} {as bs : List Application}
    {failure failure' : Option EvalError} (h : Performs xs as failure)
    (h' : Performs xs bs failure') : as = bs ∧ failure = failure' := by
  induction h generalizing bs with
  | nil =>
    cases h' with
    | nil => exact ⟨rfl, rfl⟩
  | cons hx ha _ ih =>
    cases h' with
    | cons hx' ha' hrest' =>
      cases hx.symm.trans hx'
      obtain ⟨rfl, rfl⟩ := ih hrest'
      exact ⟨rfl, rfl⟩
    | fail hx' ha' =>
      cases hx.symm.trans hx'
      cases ha.symm.trans ha'
  | fail hx ha =>
    cases h' with
    | cons hx' ha' _ =>
      cases hx.symm.trans hx'
      cases ha.symm.trans ha'
    | fail hx' ha' =>
      cases hx.symm.trans hx'
      cases ha.symm.trans ha'
      exact ⟨rfl, rfl⟩

/-! ## Stacks of values and stacks of trees -/

/-- A pending operator holds the value of what a frame holds as a tree. -/
inductive Frame.Holds : Frame → Pending → Prop
  | binary {left : Expr} {value : Float} (op : BinaryOp) (position : Nat) :
      left.eval = .ok value → Holds (.binary op left position) (.binary op value position)
  | unary (op : UnaryOp) (position : Nat) : Holds (.unary op position) (.unary op position)
  | group (position : Nat) : Holds (.group position) (.group position)

namespace Frame.Holds

variable {f : Frame} {p : Pending}

/-- A frame and what it holds wait for the same level. -/
theorem awaits_eq (h : f.Holds p) : p.awaits = f.awaits := by
  cases h <;> rfl

/-- They have the same position. -/
theorem position_eq (h : f.Holds p) : p.position = f.position := by
  cases h <;> rfl

/-- They open the same levels. -/
theorem levels_eq (h : f.Holds p) : p.levels = f.levels := by
  cases h with
  | binary op => cases op <;> rfl
  | unary | group => rfl

/-- What is held nests if the frame opens a level. -/
theorem nests_iff (h : f.Holds p) : p.nests = true ↔ f.levels = 1 := by
  rw [← h.levels_eq, Pending.levels]
  split <;> simp_all

/-- The value of an operator's last operand makes its application. -/
theorem application?_eq (h : f.Holds p) {x y : Expr} {value : Float} (hy : f.complete? x = some y)
    (hx : x.eval = .ok value) :
    ∃ a, p.application? value = some a ∧ y.application? = some a ∧ y.eval = a.outcome := by
  cases h with
  | group => cases hy
  | @binary left _ op position hleft =>
    cases hy
    exact ⟨_, rfl, by simp only [Expr.application?, hleft, hx], by rw [Expr.eval, hleft, hx]; rfl⟩
  | unary op position =>
    cases hy
    exact ⟨_, rfl, by simp only [Expr.application?, hx], by rw [Expr.eval, hx]; rfl⟩

end Frame.Holds

namespace Parsing

/-- An evaluation holds the values of what a parse holds as trees. -/
inductive Tracks (goal : Level) (maxDepth : Nat) : Parsing → Evaluation → Prop
  | wants {frames : List Frame} {stack : List Pending} :
      List.Forall₂ Frame.Holds frames stack →
      Tracks goal maxDepth ⟨frames, none⟩ ⟨goal, maxDepth, stack, nesting frames, none⟩
  | complete {frames : List Frame} {stack : List Pending} {x : Expr} {value : Float} :
      List.Forall₂ Frame.Holds frames stack → x.eval = .ok value →
      Tracks goal maxDepth ⟨frames, some x⟩ ⟨goal, maxDepth, stack, nesting frames, some value⟩

/-- A verdict is the move of the parse, with a value in place of a tree. -/
inductive Corresponds (goal : Level) (maxDepth : Nat) : Move → Verdict → Prop
  | shift {p : Parsing} {e : Evaluation} :
      Tracks goal maxDepth p e → Corresponds goal maxDepth (.shift p) (.proceed e)
  | refuse (error : EvalError) : Corresponds goal maxDepth (.refuse error) (.refuse error)
  | accept {x : Expr} {value : Float} :
      x.eval = .ok value → Corresponds goal maxDepth (.stop (.ok x)) (.stop (.ok value))
  | reject (error : EvalError) :
      Corresponds goal maxDepth (.stop (.error error)) (.stop (.error error))

/-- A reaction applies the operators that a turn completes and makes the turn's move, or it stops
at the first of them that fails. -/
inductive Agrees (goal : Level) (maxDepth : Nat) (turn : Turn) (r : Reaction) : Prop
  | done : Performs turn.completed r.applied none → Corresponds goal maxDepth turn.move r.verdict →
      Agrees goal maxDepth turn r
  | failed {e : EvalError} : Performs turn.completed r.applied (some e) →
      r.verdict = .stop (.error e) → Agrees goal maxDepth turn r

section
variable {goal : Level} {maxDepth : Nat} {frames : List Frame} {stack : List Pending} {f : Frame}
  {p : Pending} {t : Placed}

/-- Stacks of trees and of values wait for the same level. -/
theorem awaited_eq (h : List.Forall₂ Frame.Holds frames stack) :
    Evaluation.awaited goal stack = awaited goal frames := by
  cases h with
  | nil => rfl
  | cons hf _ => exact hf.awaits_eq

/-- Putting a frame on one and what it holds on the other corresponds. -/
theorem corresponds_push (h : List.Forall₂ Frame.Holds frames stack) (hf : f.Holds p) :
    Corresponds goal maxDepth (push maxDepth frames f)
      (Evaluation.push goal maxDepth stack (nesting frames) p) := by
  unfold push Evaluation.push
  by_cases hdeep : f.levels = 1 ∧ maxDepth ≤ nesting frames
  · rw [if_pos hdeep, if_pos (by simpa [hf.nests_iff] using hdeep), hf.position_eq]
    exact .refuse _
  · rw [if_neg hdeep, if_neg (by simpa [hf.nests_iff] using hdeep), hf.levels_eq, Nat.add_comm]
    exact .shift (.wants (.cons hf h))

/-- Where an operand has to come, both do what corresponds. -/
theorem corresponds_expect (h : List.Forall₂ Frame.Holds frames stack) :
    Corresponds goal maxDepth (expect goal maxDepth frames t)
      (Evaluation.expect goal maxDepth stack (nesting frames) t) := by
  obtain ⟨token, position⟩ := t
  cases token with
  | number value => exact .shift (.complete h rfl)
  | opening => exact corresponds_push h (.group position)
  | plus | minus =>
    simp only [expect, Evaluation.expect, Token.unaryOp?, awaited_eq h, UnaryOp.level]
    split
    · exact corresponds_push h (.unary _ position)
    · exact .reject _
  | star | slash | power | closing | finish | invalid => exact .reject _

/-- Behind an operand and its value, both agree. -/
theorem agrees_settle (h : List.Forall₂ Frame.Holds frames stack) {x : Expr} {value : Float}
    (hx : x.eval = .ok value) :
    Agrees goal maxDepth (settle goal maxDepth t frames x)
      (Evaluation.settle goal maxDepth t stack (nesting frames) value) := by
  induction h generalizing x value with
  | nil =>
    unfold Evaluation.settle
    rw [awaited_eq .nil]
    cases hc : Evaluation.continues? (awaited goal []) t.token with
    | some op =>
      rw [settle_continues hc]
      exact .done .nil (corresponds_push .nil (.binary op _ hx))
    | none =>
      rw [settle_nil hc]
      exact .done .nil (.accept hx)
  | @cons f p below stack hf hbelow ih =>
    unfold Evaluation.settle
    rw [awaited_eq (.cons hf hbelow)]
    cases hc : Evaluation.continues? (awaited goal (f :: below)) t.token with
    | some op =>
      rw [settle_continues hc]
      exact .done .nil (corresponds_push (.cons hf hbelow) (.binary op _ hx))
    | none =>
      have hdepth : nesting (f :: below) - p.levels = nesting below := by
        rw [hf.levels_eq, nesting, Nat.add_sub_cancel_left]
      cases hy : f.complete? x with
      | none =>
        cases hf with
        | binary | unary => cases hy
        | group opening =>
          by_cases ht : t.token = .closing
          · simp only [settle_closing ht, Pending.application?, if_pos ht, hdepth]
            exact .done .nil (.shift (.complete hbelow hx))
          · simp only [settle_unclosed hc ht, Pending.application?, if_neg ht]
            exact .done .nil (.reject _)
      | some y =>
        obtain ⟨a, ha, hya, heval⟩ := hf.application?_eq hy hx
        simp only [settle_complete hy hc, ha, hdepth]
        cases hresult : a.outcome with
        | error e => exact .failed (.fail hya hresult) rfl
        | ok result =>
          rw [hresult] at heval
          cases ih heval with
          | done hperforms hmove => exact .done (.cons hya hresult hperforms) hmove
          | failed hperforms hverdict => exact .failed (.cons hya hresult hperforms) hverdict

/-- A parse and an evaluation that holds its values make the same turn. -/
theorem Tracks.agrees_react {q : Parsing} {e : Evaluation} (h : Tracks goal maxDepth q e) :
    Agrees goal maxDepth (react goal maxDepth q t) (e.react t) := by
  cases h with
  | wants hstack => exact .done .nil (corresponds_expect hstack)
  | complete hstack hx => exact agrees_settle hstack hx

/-- Each turn of an evaluation agrees with one of the parse. -/
theorem Tracks.exists_turn {q : Parsing} {e : Evaluation} (h : Tracks goal maxDepth q e)
    {applied : List Application} {verdict : Verdict} (hreact : e.react t = ⟨applied, verdict⟩) :
    ∃ completed move, react goal maxDepth q t = ⟨completed, move⟩ ∧
      Agrees goal maxDepth ⟨completed, move⟩ ⟨applied, verdict⟩ :=
  ⟨_, _, rfl, hreact ▸ h.agrees_react⟩

end

end Parsing

/-! ## Runs -/

/-- The application that an event reports. -/
def Event.application? : Event → Option Application
  | .applied a => some a
  | _ => none

/-- The applications that a list of events reports, in order. -/
def applications (events : List Event) : List Application :=
  events.filterMap Event.application?

/-- Where all events are applications, these are the applications. -/
theorem applications_applied (as : List Application) : applications (as.map .applied) = as := by
  rw [applications, List.filterMap_map]
  exact List.filterMap_some

/-- Applications come before those of later events. -/
theorem applications_applied_append (as : List Application) (events : List Event) :
    applications (as.map .applied ++ events) = as ++ applications events := by
  rw [applications, List.filterMap_append]
  exact congrArg (· ++ _) (applications_applied as)

/-- Reading a token applies nothing. -/
theorem applications_applied_lexed (as : List Application) (t : Placed) (events : List Event) :
    applications (as.map .applied ++ .lexed t :: events) = as ++ applications events :=
  applications_applied_append as (.lexed t :: events)

/-- A run applies the operators that a parse lists and comes to the end of the parse, or it ends
with the first of them that fails. -/
inductive Parse.Realises (parse : Parse) (r : Run) : Prop
  | failed {e : EvalError} : Performs parse.completed (applications r.events) (some e) →
      r.outcome = .error e → Realises parse r
  | accepted {x : Expr} {value : Float} : Performs parse.completed (applications r.events) none →
      parse.result = .ok x → x.eval = .ok value → r.outcome = .ok value →
      r.session.stream = parse.rest → Realises parse r
  | rejected {e : EvalError} : Performs parse.completed (applications r.events) none →
      parse.result = .error e → r.outcome = .error e → r.session.stream = parse.rest →
      Realises parse r

/-- A failure of an operator that a parse lists is what a run of it comes to. -/
theorem Parse.Realises.outcome_of_failure {parse : Parse} {r : Run} (h : parse.Realises r)
    {as : List Application} {e : EvalError} (hfail : Performs parse.completed as (some e)) :
    r.outcome = .error e := by
  cases h with
  | failed hperforms houtcome =>
    cases (hfail.unique hperforms).2
    exact houtcome
  | accepted hperforms | rejected hperforms => cases (hfail.unique hperforms).2

/-- A parse determines the outcome of the runs that realise it. -/
theorem Parse.Realises.outcome_unique {parse : Parse} {r r' : Run} (h : parse.Realises r)
    (h' : parse.Realises r') : r.outcome = r'.outcome := by
  cases h with
  | failed hperforms houtcome => rw [houtcome, h'.outcome_of_failure hperforms]
  | accepted hperforms hresult hvalue houtcome =>
    cases h' with
    | failed hperforms' => cases (hperforms.unique hperforms').2
    | accepted _ hresult' hvalue' houtcome' =>
      cases hresult.symm.trans hresult'
      cases hvalue.symm.trans hvalue'
      rw [houtcome, houtcome']
    | rejected _ hresult' => cases hresult.symm.trans hresult'
  | rejected hperforms hresult houtcome =>
    cases h' with
    | failed hperforms' => cases (hperforms.unique hperforms').2
    | accepted _ hresult' => cases hresult.symm.trans hresult'
    | rejected _ hresult' houtcome' =>
      cases hresult.symm.trans hresult'
      rw [houtcome, houtcome']

/-- What a turn performs and takes goes in front of the run behind it. -/
theorem Parse.Realises.cons {parse : Parse} {r : Run} {completed : List Expr}
    {applied : List Application} {t : Placed} (hperforms : Performs completed applied none)
    (h : parse.Realises r) :
    Realises { parse with completed := completed ++ parse.completed }
      { r with events := applied.map .applied ++ .lexed t :: r.events } := by
  have happlications : applications (applied.map .applied ++ .lexed t :: r.events) =
      applied ++ applications r.events := applications_applied_lexed applied t r.events
  cases h with
  | failed hlater houtcome =>
    exact .failed (happlications ▸ hperforms.append hlater) houtcome
  | accepted hlater hresult hvalue houtcome hrest =>
    exact .accepted (happlications ▸ hperforms.append hlater) hresult hvalue houtcome hrest
  | rejected hlater hresult houtcome hrest =>
    exact .rejected (happlications ▸ hperforms.append hlater) hresult houtcome hrest

/-- A run of an evaluation realises the parse that it tracks, over the stream of its session. -/
theorem Session.run_realises {goal : Level} {maxDepth : Nat} {p : Parsing} {e : Evaluation}
    (h : p.Tracks goal maxDepth e) (s : Session) :
    (Parsing.run goal maxDepth p s.stream).Realises (s.run e) := by
  fun_induction Session.run e s generalizing p with
  | case1 e s applied next hreact r =>
    rename_i ih
    have hlookahead := lookahead_ne_finish hreact fun _ hstop => by cases hstop
    have hstream := stream_eq_cons hlookahead
    obtain ⟨completed, move, hturn, hagrees⟩ := h.exists_turn hreact
    rw [hstream, Parsing.run, hturn]
    cases hagrees with
    | failed _ hverdict => cases hverdict
    | done hperforms hmove =>
      cases hmove with
      | shift htracks => exact (ih htracks).cons hperforms
  | case2 e s applied error hreact =>
    have hlookahead := lookahead_ne_finish hreact fun _ hstop => by cases hstop
    have hstream := stream_eq_cons hlookahead
    obtain ⟨completed, move, hturn, hagrees⟩ := h.exists_turn hreact
    rw [hstream, Parsing.run, hturn]
    cases hagrees with
    | failed _ hverdict => cases hverdict
    | done hperforms hmove =>
      cases hmove with
      | refuse =>
        refine .rejected ?_ rfl rfl rfl
        rw [applications_applied_lexed]
        simpa [applications] using hperforms
  | case3 e s applied outcome hreact =>
    obtain ⟨ts, hstream⟩ := s.exists_stream_eq
    obtain ⟨completed, move, hturn, hagrees⟩ := h.exists_turn hreact
    rw [hstream, Parsing.run, hturn]
    cases hagrees with
    | failed hperforms hverdict =>
      injection hverdict with houtcome
      refine .failed ?_ houtcome
      rw [applications_applied]
      cases move with
      | shift next => exact hperforms.append_of_failure _
      | refuse error => exact hperforms
      | stop result => exact hperforms
    | done hperforms hmove =>
      rw [← applications_applied applied] at hperforms
      cases hmove with
      | accept hvalue => exact .accepted hperforms rfl hvalue rfl hstream
      | reject => exact .rejected hperforms rfl rfl hstream

/-! ## Whole texts -/

/-- A tree is that of a whole text only if the end stands behind it. -/
def Parsing.checkEnd (rest : List Placed) (x : Expr) : Except EvalError Expr :=
  match rest with
  | [] => .ok x
  | t :: _ =>
    match t.token with
    | .finish => .ok x
    | .invalid => .error ⟨.invalidCharacter, t.position⟩
    | _ => .error ⟨.trailingInput, t.position⟩

/-- Parses a text as one expression. -/
def parseText (source : String) (maxDepth : Nat) : Parse :=
  let parse := Parsing.run .expression maxDepth Parsing.start (tokens source)
  { parse with result := parse.result.bind (Parsing.checkEnd parse.rest) }

/-- A text is parsed by a run over its tokens and a look at what is behind. -/
theorem parseText_result (source : String) (maxDepth : Nat) :
    (parseText source maxDepth).result =
      (Parsing.run .expression maxDepth Parsing.start (tokens source)).result.bind (Parsing.checkEnd
        (Parsing.run .expression maxDepth Parsing.start (tokens source)).rest) := rfl

/-- The operators that a text lists are parts of it, each with its operands. -/
theorem parseText_standsIn (source : String) (maxDepth : Nat) :
    ∀ x ∈ (parseText source maxDepth).completed, x.StandsIn (tokens source) :=
  Parsing.After.start.run_standsIn

/-- The end is checked for a tree as it is for its value. -/
theorem Parsing.checkEnd_cases (t : Placed) (rest : List Placed) (x : Expr) (value : Float) :
    (checkEnd (t :: rest) x = .ok x ∧ Session.checkEnd t value = .ok value) ∨
      ∃ e, checkEnd (t :: rest) x = .error e ∧ Session.checkEnd t value = .error e := by
  obtain ⟨token, position⟩ := t
  cases token with
  | finish => exact .inl ⟨rfl, rfl⟩
  | invalid => exact .inr ⟨⟨.invalidCharacter, position⟩, rfl, rfl⟩
  | number | plus | minus | star | slash | power | opening | closing =>
    exact .inr ⟨⟨.trailingInput, position⟩, rfl, rfl⟩

/-- Whatever else than the end stands behind a tree is blamed. -/
theorem Parsing.checkEnd_error {rest : List Placed} {x : Expr} {e : EvalError}
    (h : checkEnd rest x = .error e) :
    ∃ t after, rest = t :: after ∧ t.token ≠ .finish ∧
      e = ⟨if t.token = .invalid then .invalidCharacter else .trailingInput, t.position⟩ := by
  unfold checkEnd at h
  split at h
  · cases h
  · next t after =>
    refine ⟨t, after, rfl, ?_⟩
    split at h
    · cases h
    · next hinvalid =>
      cases h
      rw [hinvalid]
      exact ⟨nofun, rfl⟩
    · next hfinish hinvalid =>
      cases h
      exact ⟨hfinish, by rw [if_neg hinvalid]⟩

/-- A text that does not parse has an error of the syntax or a level too many. -/
theorem parseText_error {source : String} {maxDepth : Nat} {e : EvalError}
    (h : (parseText source maxDepth).result = .error e) :
    e.kind.isSyntax ∨ e.kind = .nestingTooDeep := by
  rw [parseText_result] at h
  cases hresult : (Parsing.run .expression maxDepth Parsing.start (tokens source)).result with
  | ok x =>
    rw [hresult] at h
    obtain ⟨t, after, -, -, rfl⟩ := Parsing.checkEnd_error h
    dsimp only
    split <;> exact .inl rfl
  | error error =>
    rw [hresult] at h
    cases h
    exact Parsing.run_error hresult

/-- The event that closes an evaluation applies nothing. -/
theorem applications_closing (events : List Event) (outcome : Outcome) :
    applications (events ++ [Session.closing outcome]) = applications events := by
  rw [applications, List.filterMap_append]
  cases outcome <;> exact List.append_nil _

/-- What is checked at the end of a text is the same for a tree and for its value. -/
theorem Parse.Realises.whole {parse : Parse} {r : Run} (h : parse.Realises r) (event : Outcome) :
    Realises { parse with result := parse.result.bind (Parsing.checkEnd parse.rest) }
      ⟨r.outcome.bind (Session.checkEnd r.session.lookahead),
        r.events ++ [Session.closing event], r.session⟩ := by
  have happlications := applications_closing r.events event
  cases h with
  | failed hperforms houtcome =>
    rw [houtcome]
    exact .failed (happlications ▸ hperforms) rfl
  | rejected hperforms hresult houtcome hrest =>
    rw [hresult, houtcome]
    exact .rejected (happlications ▸ hperforms) rfl rfl hrest
  | @accepted x value hperforms hresult hvalue houtcome hrest =>
    obtain ⟨ts, hstream⟩ := r.session.exists_stream_eq
    rw [hresult, houtcome]
    rcases Parsing.checkEnd_cases r.session.lookahead ts x value with
      ⟨htree, hend⟩ | ⟨e, htree, hend⟩
    · rw [← hstream, hrest] at htree
      exact .accepted (happlications ▸ hperforms) htree hvalue hend hrest
    · rw [← hstream, hrest] at htree
      exact .rejected (happlications ▸ hperforms) htree hend hrest

/-- Evaluating a text realises its parse. -/
theorem Session.finish_realises (source : String) (maxDepth : Nat) :
    (parseText source maxDepth).Realises (start source maxDepth).finish := by
  have hrun : (Parsing.run .expression maxDepth Parsing.start (tokens source)).Realises
      ((start source maxDepth).parse .expression) := by
    rw [← stream_start source maxDepth]
    exact run_realises (.wants .nil) (start source maxDepth)
  exact hrun.whole _

/-- The first token that is read applies nothing. -/
theorem applications_trace (source : String) (maxDepth : Nat) :
    applications (trace source maxDepth).2 =
      applications (Session.start source maxDepth).finish.events := rfl

/-! ## Failures of applications -/

/-- The position of the operator. -/
def Application.position : Application → Nat
  | .binary _ _ _ position => position
  | .unary _ _ position => position

/-- The error of an application is a numeric one, and its operator is blamed. -/
theorem Application.outcome_error {a : Application} {e : EvalError} (h : a.outcome = .error e) :
    (e.kind = .divisionByZero ∨ e.kind = .invalidExponentiation) ∧ e.position = a.position := by
  cases a with
  | unary => cases h
  | binary op left right position =>
    cases op with
    | add | sub | mul => cases h
    | div =>
      simp only [Application.outcome, BinaryOp.apply, divide] at h
      split at h
      · cases h
        exact ⟨.inl rfl, rfl⟩
      · cases h
    | pow =>
      simp only [Application.outcome, BinaryOp.apply, raise] at h
      split at h
      · cases h
      · cases h
        exact ⟨.inr rfl, rfl⟩

/-- Where applying operators fails, it is the last of them that fails. -/
theorem Performs.getLast?_of_failure {xs : List Expr} {as : List Application} {e : EvalError}
    (h : Performs xs as (some e)) : ∃ a, as.getLast? = some a ∧ a.outcome = .error e := by
  generalize hsome : some e = failure at h
  induction h with
  | nil => cases hsome
  | cons _ _ _ ih =>
    obtain ⟨a, hlast, ha⟩ := ih hsome
    exact ⟨a, by rw [List.getLast?_cons, hlast]; rfl, ha⟩
  | fail _ ha =>
    cases hsome
    exact ⟨_, rfl, ha⟩

/-- An error of an evaluation that is not a numeric one is the error of the parse. -/
theorem parseText_of_error {source : String} {maxDepth : Nat} {e : EvalError}
    (h : evaluateWith source maxDepth = .error e) (hdiv : e.kind ≠ .divisionByZero)
    (hpow : e.kind ≠ .invalidExponentiation) : (parseText source maxDepth).result = .error e := by
  cases Session.finish_realises source maxDepth with
  | failed hperforms houtcome =>
    cases houtcome.symm.trans h
    obtain ⟨a, -, ha⟩ := hperforms.getLast?_of_failure
    rcases (a.outcome_error ha).1 with hnumeric | hnumeric
    · exact absurd hnumeric hdiv
    · exact absurd hnumeric hpow
  | rejected _ hresult houtcome _ =>
    cases houtcome.symm.trans h
    exact hresult
  | accepted _ _ _ houtcome _ => cases houtcome.symm.trans h

/-- Evaluating a text applies the operators that its parse lists, which are those of parts of the
text, in this order and up to the first that fails, and reports that failure; if none fails it
reports the error of the parse, and if there is none the value of the tree. -/
theorem evaluateWith_two_phase (source : String) (maxDepth : Nat) :
    (∀ x ∈ (parseText source maxDepth).completed, x.StandsIn (tokens source)) ∧
    ((∃ a e,
        Performs (parseText source maxDepth).completed (applications (trace source maxDepth).2)
          (some e) ∧
        (applications (trace source maxDepth).2).getLast? = some a ∧ a.outcome = .error e ∧
        (e.kind = .divisionByZero ∨ e.kind = .invalidExponentiation) ∧ e.position = a.position ∧
        evaluateWith source maxDepth = .error e) ∨
      Performs (parseText source maxDepth).completed (applications (trace source maxDepth).2) none ∧
        ((∃ e, (parseText source maxDepth).result = .error e ∧
            (e.kind.isSyntax ∨ e.kind = .nestingTooDeep) ∧
            evaluateWith source maxDepth = .error e) ∨
          ∃ x value, (parseText source maxDepth).result = .ok x ∧ x.eval = .ok value ∧
            evaluateWith source maxDepth = .ok value)) := by
  refine ⟨parseText_standsIn source maxDepth, ?_⟩
  rw [applications_trace]
  cases Session.finish_realises source maxDepth with
  | failed hperforms houtcome =>
    obtain ⟨a, hlast, ha⟩ := hperforms.getLast?_of_failure
    obtain ⟨hkind, hposition⟩ := a.outcome_error ha
    exact .inl ⟨a, _, hperforms, hlast, ha, hkind, hposition, houtcome⟩
  | rejected hperforms hresult houtcome _ =>
    exact .inr ⟨hperforms, .inl ⟨_, hresult, parseText_error hresult, houtcome⟩⟩
  | accepted hperforms hresult hvalue houtcome _ =>
    exact .inr ⟨hperforms, .inr ⟨_, _, hresult, hvalue, houtcome⟩⟩

end Reckon
