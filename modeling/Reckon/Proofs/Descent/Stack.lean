import Reckon.Proofs.Descent
import Reckon.Proofs.Parsing.Completeness
import Reckon.Proofs.Stream

/-!
# Recursive procedures and the stack

The recursive procedures do what an evaluation with a stack does. The operators and parentheses that
wait on the stack are the calls that are active, and a procedure that is called where the stack
wants an operand comes to the error of the evaluation, or to a value with which the evaluation goes
on as its operand. `Descent.Agrees` says this for all stacks at once, and `Descent.Kept` that the
levels that a call opens are given back, also when it fails, and stay within the limit.

There is one lemma for each procedure, from those that it calls (`Descent.reads_chain`,
`Descent.reads_factor`, and so on), and `Descent.call_reads` is the induction on the budget.
`Descent.call_eq` and `Descent.parses_eq` say it of calls from outside.
-/

namespace Reckon

/-! ## Steps of the evaluation with a stack -/

/-- What a call comes to, without the events on the way. -/
def Run.result (r : Run) : Outcome × Session :=
  (r.outcome, r.session)

namespace Session

section
variable {e next : Evaluation} {s : Session} {applied : List Application} {goal : Level}
  {maxDepth depth : Nat} {stack : List Pending} {p : Pending} {value : Float}

/-- Where the evaluation goes on, the result is that of the next state behind the token. -/
theorem result_proceed (h : e.react s.lookahead = ⟨applied, .proceed next⟩) :
    (s.run e).result = (s.advance.run next).result := by
  rw [run_proceed h]
  rfl

/-- Where a token is refused, that is the result, and the token is taken. -/
theorem result_refuse {error : EvalError} (h : e.react s.lookahead = ⟨applied, .refuse error⟩) :
    (s.run e).result = (.error error, s.advance) := by
  rw [run_refuse h]
  rfl

/-- Where the evaluation stops, the token is left. -/
theorem result_stop {outcome : Outcome} (h : e.react s.lookahead = ⟨applied, .stop outcome⟩) :
    (s.run e).result = (outcome, s) := by
  rw [run_stop h]
  rfl

/-- Where nothing goes on with the last operand of an operator, the operator is applied. -/
theorem result_apply {a : Application} (ha : p.application? value = some a)
    (hc : Evaluation.continues? p.awaits s.lookahead.token = none) :
    (s.run ⟨goal, maxDepth, p :: stack, depth, some value⟩).result =
      match a.outcome with
      | .ok result => (s.run ⟨goal, maxDepth, stack, depth - p.levels, some result⟩).result
      | .error e => (.error e, s) := by
  have hsettle : Evaluation.react ⟨goal, maxDepth, p :: stack, depth, some value⟩ s.lookahead =
      Evaluation.settle goal maxDepth s.lookahead (p :: stack) depth value := rfl
  rw [Evaluation.settle, Evaluation.awaited, hc] at hsettle
  simp only [ha] at hsettle
  cases houtcome : a.outcome with
  | error e =>
    rw [houtcome] at hsettle
    exact result_stop hsettle
  | ok result =>
    rw [houtcome] at hsettle
    rcases hbelow : Evaluation.settle goal maxDepth s.lookahead stack (depth - p.levels) result with
      ⟨applied, verdict⟩
    have hreact : Evaluation.react ⟨goal, maxDepth, stack, depth - p.levels, some result⟩
        s.lookahead = ⟨applied, verdict⟩ := hbelow
    simp only [hbelow] at hsettle
    cases verdict with
    | proceed => exact (result_proceed hsettle).trans (result_proceed hreact).symm
    | refuse => exact (result_refuse hsettle).trans (result_refuse hreact).symm
    | stop => exact (result_stop hsettle).trans (result_stop hreact).symm

end

end Session

/-! ## Procedures and the stack -/

namespace Descent

/-- What a call keeps: the limit, and the levels that are open. It takes tokens at most, and never
opens more levels than the limit. -/
structure Kept (s s' : State) : Prop where
  maxDepth : s'.session.maxDepth = s.session.maxDepth
  depth : s'.depth = s.depth
  deepest : s'.deepest ≤ max s.deepest s.session.maxDepth
  size : s'.session.size ≤ s.session.size

/-- What the evaluation with a stack comes to from a state on. -/
def State.follow (s : State) (goal : Level) (stack : List Pending) (operand : Option Float) :
    Outcome × Session :=
  (s.session.run ⟨goal, s.session.maxDepth, stack, s.depth, operand⟩).result

/-- What it comes to once the look-ahead is to go on the stack as `p`. -/
def State.opened (s : State) (p : Pending) (goal : Level) (stack : List Pending) :
    Outcome × Session :=
  if p.nests ∧ s.session.maxDepth ≤ s.depth then
    (.error ⟨.nestingTooDeep, p.position⟩, s.session.advance)
  else { s.advance with depth := s.depth + p.levels }.follow goal (p :: stack) none

/-- What a procedure comes to from the state `s` on is what the evaluation with a stack comes to,
for each goal and stack that wants an operand of the level: the error, or whatever the stack makes
of the value as its operand. -/
inductive Agrees (l : Level) (wants : Level → List Pending → Prop)
    (evaluation : Level → List Pending → Outcome × Session) (s : State) :
    Option (Outcome × State) → Prop
  | returns {value : Float} {s' : State} : Kept s s' →
      Evaluation.continues? l s'.session.lookahead.token = none →
      (∀ goal stack, wants goal stack → evaluation goal stack = s'.follow goal stack (some value)) →
      Agrees l wants evaluation s (some (.ok value, s'))
  | fails {e : EvalError} {s' : State} : Kept s s' →
      (∀ goal stack, wants goal stack → evaluation goal stack = (.error e, s'.session)) →
      Agrees l wants evaluation s (some (.error e, s'))

/-- The stack waits for an operand of at least the level, and not for a sign that the level has
not. -/
structure Wants (l : Level) (t : Placed) (goal : Level) (stack : List Pending) : Prop where
  level : l ≤ Evaluation.awaited goal stack
  sign : t.token.unaryOp? ≠ none → .factor ≤ Evaluation.awaited goal stack → .factor ≤ l

/-- The procedure reads an operand of the level. -/
def Reads (l : Level) (s : State) (x : Proc Float) : Prop :=
  Agrees l (Wants l s.session.lookahead) (fun goal stack => s.follow goal stack none) s (x s)

/-- The procedure goes on with an operand of the level. -/
def GoesOn (l : Level) (s : State) (value : Float) (x : Proc Float) : Prop :=
  Agrees l (fun goal stack => l ≤ Evaluation.awaited goal stack)
    (fun goal stack => s.follow goal stack (some value)) s (x s)

section
variable {l : Level} {s s' r : State} {p : Pending} {body x : Proc Float}

/-- Doing nothing keeps everything. -/
theorem Kept.refl (s : State) : Kept s s :=
  ⟨rfl, rfl, Nat.le_max_left _ _, Nat.le_refl _⟩

/-- What each of two calls keeps, both keep. -/
theorem Kept.trans (h : Kept s s') (h' : Kept s' r) : Kept s r := by
  refine ⟨h'.maxDepth.trans h.maxDepth, h'.depth.trans h.depth, ?_, Nat.le_trans h'.size h.size⟩
  have hdeep := h'.deepest
  have hdeep' := h.deepest
  rw [h.maxDepth] at hdeep
  omega

/-- Taking a token keeps the levels that are open. -/
theorem Kept.advance (h : s.session.lookahead.token ≠ .finish) : Kept s s.advance :=
  ⟨rfl, rfl, Nat.le_max_left _ _, Nat.le_of_lt (Session.advance_size s.session h)⟩

/-- What a call comes to from a later state on. -/
theorem Agrees.before {wants : Level → List Pending → Prop}
    {evaluation : Level → List Pending → Outcome × Session} {result : Option (Outcome × State)}
    (h : Agrees l wants evaluation s' result) (hkept : Kept s s') :
    Agrees l wants evaluation s result := by
  cases h with
  | returns hlater hnone hfollow => exact .returns (hkept.trans hlater) hnone hfollow
  | fails hlater hfollow => exact .fails (hkept.trans hlater) hfollow

/-- Agreement for fewer goals and stacks, and for an evaluation that comes to the same there. -/
theorem Agrees.weaken {wants wants' : Level → List Pending → Prop}
    {evaluation evaluation' : Level → List Pending → Outcome × Session}
    {result : Option (Outcome × State)} (h : Agrees l wants evaluation s result)
    (hwants : ∀ goal stack, wants' goal stack → wants goal stack)
    (hsame : ∀ goal stack, wants' goal stack → evaluation' goal stack = evaluation goal stack) :
    Agrees l wants' evaluation' s result := by
  cases h with
  | returns hkept hnone hfollow =>
    refine .returns hkept hnone fun goal stack hwanted => ?_
    rw [hsame goal stack hwanted, hfollow goal stack (hwants goal stack hwanted)]
  | fails hkept hfollow =>
    refine .fails hkept fun goal stack hwanted => ?_
    rw [hsame goal stack hwanted, hfollow goal stack (hwants goal stack hwanted)]

/-- A procedure goes on with the value of the one before it. -/
theorem Agrees.bind {wants wants' : Level → List Pending → Prop}
    {evaluation : Level → List Pending → Outcome × Session} {b : Level} {f : Float → Proc Float}
    (h : Agrees l wants evaluation s (x r))
    (hwants : ∀ goal stack, wants' goal stack → wants goal stack)
    (hf : ∀ value s', Kept s s' → Evaluation.continues? l s'.session.lookahead.token = none →
      Agrees b wants' (fun goal stack => s'.follow goal stack (some value)) s' (f value s')) :
    Agrees b wants' evaluation s ((x >>= f) r) := by
  generalize hresult : x r = result at h
  cases h with
  | @returns value s' hkept hnone hfollow =>
    rw [bind_ok hresult]
    refine ((hf value s' hkept hnone).before hkept).weaken (fun _ _ h => h) fun goal stack h => ?_
    exact hfollow goal stack (hwants goal stack h)
  | fails hkept hfollow =>
    rw [bind_error hresult]
    exact .fails hkept fun goal stack h => hfollow goal stack (hwants goal stack h)

/-- A call one level deeper keeps what it keeps there. -/
theorem Kept.leave (h : Kept s.enter s') (hroom : s.depth < s.session.maxDepth) :
    Kept s s'.leave := by
  refine ⟨h.maxDepth, ?_, ?_, h.size⟩
  · have hdepth : s'.depth = s.depth + 1 := h.depth
    show s'.depth - 1 = s.depth
    omega
  · have hdeep : s'.deepest ≤ max (max s.deepest (s.depth + 1)) s.session.maxDepth := h.deepest
    show s'.deepest ≤ _
    omega

/-- The procedure brings the operand that `p` waits for, once `p` has taken the look-ahead. -/
inductive Feeds (p : Pending) (s : State) : Option (Outcome × State) → Prop
  | returns {value : Float} {s' : State} : Kept s.advance s' →
      Evaluation.continues? p.awaits s'.session.lookahead.token = none →
      (∀ goal stack, s.opened p goal stack =
        { s' with depth := s'.depth + p.levels }.follow goal (p :: stack) (some value)) →
      Feeds p s (some (.ok value, s'))
  | fails {e : EvalError} {s' : State} : Kept s.advance s' →
      (∀ goal stack, s.opened p goal stack = (.error e, s'.session)) →
      Feeds p s (some (.error e, s'))

/-- A token that goes on the stack is taken, unless it opens a level too many. -/
theorem follow_eq_opened {goal : Level} {stack : List Pending} {operand : Option Float}
    (h : Evaluation.react ⟨goal, s.session.maxDepth, stack, s.depth, operand⟩ s.session.lookahead =
      ⟨[], Evaluation.push goal s.session.maxDepth stack s.depth p⟩) :
    s.follow goal stack operand = s.opened p goal stack := by
  rw [Evaluation.push] at h
  unfold State.follow State.opened
  by_cases hdeep : p.nests ∧ s.session.maxDepth ≤ s.depth
  · rw [if_pos (by simpa using hdeep)] at h
    rw [if_pos hdeep]
    exact Session.result_refuse h
  · rw [if_neg (by simpa using hdeep)] at h
    rw [if_neg hdeep]
    exact Session.result_proceed h

/-- An operator on the stack wants the operand that it waits for. -/
theorem wants_awaits (p : Pending) (t : Placed) (goal : Level) (stack : List Pending) :
    Wants p.awaits t goal (p :: stack) :=
  ⟨Nat.le_refl _, fun _ h => h⟩

/-- An operand one level deeper. -/
theorem feeds_nested (hp : p.nests)
    (hbody : s.depth < s.session.maxDepth → Reads p.awaits s.advance.enter body) :
    Feeds p s (nested p.position body s.advance) := by
  have hlevels : p.levels = 1 := if_pos hp
  by_cases hroom : s.depth < s.session.maxDepth
  · have hopened (goal : Level) (stack : List Pending) :
        s.opened p goal stack = s.advance.enter.follow goal (p :: stack) none := by
      rw [State.opened, if_neg (by omega), hlevels]
      rfl
    have hread := hbody hroom
    unfold Reads at hread
    generalize hresult : body s.advance.enter = result at hread
    cases hread with
    | @returns value s' hkept hnone hfollow =>
      rw [nested_of_lt (s := s.advance) hroom hresult]
      refine .returns (hkept.leave hroom) hnone fun goal stack => ?_
      have hdepth : s'.depth = s.depth + 1 := hkept.depth
      have hback : { s'.leave with depth := s'.leave.depth + p.levels } = s' := by
        rw [hlevels]
        show State.mk s'.session (s'.depth - 1 + 1) s'.deepest = s'
        rw [hdepth, Nat.add_sub_cancel, ← hdepth]
      rw [hopened, hfollow goal (p :: stack) (wants_awaits p _ goal stack), hback]
    | fails hkept hfollow =>
      rw [nested_of_lt (s := s.advance) hroom hresult]
      refine .fails (hkept.leave hroom) fun goal stack => ?_
      exact (hopened goal stack).trans (hfollow goal (p :: stack) (wants_awaits p _ goal stack))
  · have hle : s.session.maxDepth ≤ s.depth := Nat.le_of_not_lt hroom
    rw [nested_of_le (s := s.advance) hle]
    exact .fails (.refl _) fun goal stack => if_pos ⟨hp, hle⟩

/-- An operand on the same level. -/
theorem feeds_flat (hp : p.nests = false) (hbody : Reads p.awaits s.advance body) :
    Feeds p s (body s.advance) := by
  have hlevels : p.levels = 0 := if_neg (by rw [hp]; exact Bool.false_ne_true)
  have hopened (goal : Level) (stack : List Pending) :
      s.opened p goal stack = s.advance.follow goal (p :: stack) none := by
    rw [State.opened, hp, if_neg (by simp), hlevels]
    rfl
  unfold Reads at hbody
  generalize body s.advance = result at hbody
  cases hbody with
  | @returns value s' hkept hnone hfollow =>
    refine .returns hkept hnone fun goal stack => ?_
    rw [hopened, hfollow goal (p :: stack) (wants_awaits p _ goal stack), hlevels]
    rfl
  | fails hkept hfollow =>
    exact .fails hkept fun goal stack =>
      (hopened goal stack).trans (hfollow goal (p :: stack) (wants_awaits p _ goal stack))

/-- With its last operand an operator is applied. -/
theorem Feeds.apply {a : Float → Application} (ha : ∀ value, p.application? value = some (a value))
    (h : Feeds p s (x s.advance)) :
    Agrees p.awaits (fun _ _ => True) (s.opened p) s.advance
      ((x >>= fun v => apply (a v)) s.advance) := by
  generalize hresult : x s.advance = result at h
  cases h with
  | @returns value s' hkept hnone hfollow =>
    rw [bind_ok hresult, apply_run]
    have happly (goal : Level) (stack : List Pending) :=
      (hfollow goal stack).trans (Session.result_apply (ha value) hnone)
    cases houtcome : (a value).outcome with
    | ok result =>
      refine .returns hkept hnone fun goal stack _ => ?_
      simp only [happly, houtcome, Nat.add_sub_cancel]
      rfl
    | error e =>
      refine .fails hkept fun goal stack _ => ?_
      simp only [happly, houtcome]
  | fails hkept hfollow =>
    rw [bind_error hresult]
    exact .fails hkept fun goal stack _ => hfollow goal stack

end

/-! ## The procedures -/

section
variable {l : Level} {s : State} {operand : Proc Float}

/-- An operator is not the end of the text. -/
theorem lookahead_ne_finish {op : BinaryOp} (h : s.session.lookahead.token = op.token) :
    s.session.lookahead.token ≠ .finish := by
  rw [h]
  cases op <;> exact nofun

/-- An operator that goes on with the operand in front of it is opened. -/
theorem follow_binary {goal : Level} {stack : List Pending} {op : BinaryOp} {left : Float}
    (htoken : s.session.lookahead.token = op.token)
    (hlevel : op.level ≤ Evaluation.awaited goal stack) :
    s.follow goal stack (some left) =
      s.opened (.binary op left s.session.lookahead.position) goal stack := by
  apply follow_eq_opened
  show Evaluation.settle _ _ _ _ _ _ = _
  unfold Evaluation.settle
  rw [htoken, Parsing.continues?_token hlevel]

/-- No operator goes on behind a chain: one of its level would be one of the chain, and any other
binds more tightly. -/
theorem continues?_chain (hl : l = .term ∨ l = .expression) {t : Token}
    (hop : t.binaryOp?.filter (fun op => op.level = l) = none)
    (hnone : Evaluation.continues? l.last t = none) : Evaluation.continues? l t = none := by
  cases hcont : Evaluation.continues? l t with
  | none => rfl
  | some op =>
    obtain ⟨rfl, hle⟩ := Parsing.continues?_eq_some hcont
    have hlast : op.level ≤ l.last := by
      have hne : op.level ≠ l := by simpa [Option.filter] using hop
      revert hle hne
      rcases hl with rfl | rfl <;> cases op <;> decide
    rw [Parsing.continues?_token hlast] at hnone
    cases hnone

/-- A chain goes on with an operand of its level, and has turns enough for all operators. -/
theorem chain_goesOn (hl : l = .term ∨ l = .expression)
    (hoperand : ∀ s', Kept s s' → Reads l.last s' operand) (value : Float)
    (hnone : Evaluation.continues? l.last s.session.lookahead.token = none) (turns : Nat)
    (hturns : s.session.size < turns) :
    GoesOn l s value (chain l operand turns value) := by
  induction turns generalizing s value with
  | zero => exact absurd hturns (Nat.not_lt_zero _)
  | succ turns ih =>
    rw [GoesOn, chain, lookahead_bind]
    cases hop : s.session.lookahead.token.binaryOp?.filter (fun op => op.level = l) with
    | none =>
      exact .returns (.refl s) (continues?_chain hl hop hnone) fun goal stack _ => rfl
    | some op =>
      obtain ⟨hbinary, hlevel⟩ := Option.filter_eq_some_iff.1 hop
      have htoken : s.session.lookahead.token = op.token := Token.binaryOp?_eq_some_iff.1 hbinary
      have hlevel : op.level = l := of_decide_eq_true hlevel
      have hright : op.rightLevel = l.last := by rw [← hlevel, op.last_level]
      have hs := lookahead_ne_finish htoken
      have hflat : (Pending.binary op value s.session.lookahead.position).nests = false := by
        rcases hl with rfl | rfl <;> cases op <;> first | rfl | cases hlevel
      have hfeeds := feeds_flat (s := s) (p := .binary op value s.session.lookahead.position) hflat
        (hright ▸ hoperand s.advance (.advance hs))
      have happly := hfeeds.apply (a := fun right => .binary op value right _) fun _ => rfl
      have hgoes := happly.bind (f := chain l operand turns) (fun goal stack _ => trivial)
        fun v s' hkept hcont => by
          have hfewer : s'.session.size < turns :=
            Nat.lt_of_le_of_lt hkept.size (Nat.lt_of_lt_of_le (Session.advance_size s.session hs)
              (Nat.le_of_lt_succ hturns))
          exact ih (fun r hr => hoperand r ((Kept.advance hs).trans (hkept.trans hr))) v
            (by rw [← hright]; exact hcont) hfewer
      have hassoc : (operand >>= fun right => (apply (.binary op value right
          s.session.lookahead.position) >>= chain l operand turns)) s.advance =
          ((operand >>= fun right => apply (.binary op value right
            s.session.lookahead.position)) >>= chain l operand turns) s.advance := by
        rw [bind_assoc]
      rw [← hassoc] at hgoes
      exact (hgoes.before (.advance hs)).weaken (fun _ _ h => h)
        fun goal stack hwants => follow_binary htoken (hlevel ▸ hwants)

/-- A level of chains reads a first operand and goes on with it. -/
theorem reads_chain (hl : l = .term ∨ l = .expression)
    (hoperand : ∀ s', Kept s s' → Reads l.last s' operand) :
    Reads l s (operand >>= fun left => remaining >>= fun turns =>
      chain l operand (turns + 1) left) := by
  have hle : l.last ≤ l := l.last_le
  refine Agrees.bind (hoperand s (.refl s)) (fun goal stack hwants => ?_)
    fun value s' hkept hnone =>
      (chain_goesOn hl (fun r hr => hoperand r (hkept.trans hr)) value hnone _
        (Nat.lt_succ_self _)).weaken
        (fun goal stack hwants => hwants.level) fun _ _ _ => rfl
  refine ⟨Nat.le_trans hle hwants.level, fun hsign hfactor => ?_⟩
  rcases hl with rfl | rfl <;> decide

/-- No operator goes on with a primary. -/
theorem continues?_primary (t : Token) : Evaluation.continues? .primary t = none := by
  cases t <;> rfl

/-- What goes on with a factor goes on with a power, since no operator is of the level between. -/
theorem continues?_factor {t : Token} (h : Evaluation.continues? .power t = none) :
    Evaluation.continues? .factor t = none := by
  cases t with
  | power => cases h
  | _ => rfl

/-- A sign with the factor behind it, or a power. -/
theorem reads_factor {power factor : Proc Float} (hpower : Reads .power s power)
    (hfactor : s.depth < s.session.maxDepth → Reads .factor s.advance.enter factor) :
    Reads .factor s (lookahead >>= fun t =>
      match t.token.unaryOp? with
      | none => power
      | some op => advance >>= fun _ => nested t.position factor >>= fun value =>
          apply (.unary op value t.position)) := by
  rw [Reads, lookahead_bind]
  cases hop : s.session.lookahead.token.unaryOp? with
  | none =>
    have hwants (goal : Level) (stack : List Pending)
        (h : Wants .factor s.session.lookahead goal stack) :
        Wants .power s.session.lookahead goal stack :=
      ⟨Nat.le_trans (by decide : Level.power ≤ .factor) h.level, fun hsign => absurd hop hsign⟩
    generalize hresult : power s = result at hpower
    unfold Reads at hpower
    rw [hresult] at hpower
    show Agrees _ _ _ _ (power s)
    rw [hresult]
    cases hpower with
    | returns hkept hnone hfollow =>
      exact .returns hkept (continues?_factor hnone) fun goal stack h =>
        hfollow goal stack (hwants goal stack h)
    | fails hkept hfollow =>
      exact .fails hkept fun goal stack h => hfollow goal stack (hwants goal stack h)
  | some op =>
    have htoken : s.session.lookahead.token = op.token := Token.unaryOp?_eq_some_iff.1 hop
    have hs : s.session.lookahead.token ≠ .finish := by
      rw [htoken]
      cases op <;> exact nofun
    have hfeeds := feeds_nested (s := s) (p := .unary op s.session.lookahead.position) rfl hfactor
    have happly := hfeeds.apply (a := fun value => .unary op value s.session.lookahead.position)
      fun _ => rfl
    refine (happly.before (.advance hs)).weaken (fun _ _ _ => trivial) fun goal stack hwants => ?_
    refine follow_eq_opened (congrArg (Reaction.mk []) ?_)
    unfold Evaluation.expect
    rw [htoken]
    cases op <;> exact if_pos hwants.level

/-- A primary, and the power that it is raised to. -/
theorem reads_power {primary power : Proc Float} (hprimary : Reads .primary s primary)
    (hpower : ∀ s', Kept s s' → s'.depth < s'.session.maxDepth →
      Reads .power s'.advance.enter power) :
    Reads .power s (primary >>= fun base => lookahead >>= fun t =>
      if t.token = .power then
        advance >>= fun _ => nested t.position power >>= fun exponent =>
          apply (.binary .pow base exponent t.position)
      else pure base) := by
  refine Agrees.bind hprimary (fun goal stack hwants => ?_) fun base s' hkept _ => ?_
  · exact ⟨Nat.zero_le _, fun hsign hfactor => absurd (hwants.sign hsign hfactor) (by decide)⟩
  · rw [lookahead_bind]
    by_cases htoken : s'.session.lookahead.token = .power
    · rw [if_pos htoken, advance_bind]
      have hs : s'.session.lookahead.token ≠ .finish := by
        rw [htoken]
        exact nofun
      have hfeeds := feeds_nested (s := s')
        (p := .binary .pow base s'.session.lookahead.position) rfl (hpower s' hkept)
      have happly := hfeeds.apply
        (a := fun exponent => .binary .pow base exponent s'.session.lookahead.position) fun _ => rfl
      exact (happly.before (.advance hs)).weaken (fun _ _ _ => trivial)
        fun goal stack hwants => follow_binary htoken hwants.level
    · rw [if_neg htoken, pure_run]
      refine .returns (.refl s') ?_ fun _ _ _ => rfl
      cases hcont : Evaluation.continues? .power s'.session.lookahead.token with
      | none => rfl
      | some op =>
        obtain ⟨hop, hlevel⟩ := Parsing.continues?_eq_some hcont
        cases op with
        | pow => exact absurd hop htoken
        | add | sub | mul | div => exact absurd hlevel (by decide)

/-- An expression in parentheses. -/
theorem reads_grouping {expression : Proc Float} (hs : s.session.lookahead.token = .opening)
    (hexpression : s.depth < s.session.maxDepth → Reads .expression s.advance.enter expression) :
    Reads .primary s (lookahead >>= fun t => advance >>= fun _ =>
      nested t.position expression >>= fun value => lookahead >>= fun next =>
        if next.token = .closing then advance >>= fun _ => pure value
        else throw ⟨.unmatchedParenthesis, t.position⟩) := by
  rw [Reads, lookahead_bind, advance_bind]
  have htake : s.session.lookahead.token ≠ .finish := by
    rw [hs]
    exact nofun
  have hopened (goal : Level) (stack : List Pending) :
      s.follow goal stack none = s.opened (.group s.session.lookahead.position) goal stack := by
    refine follow_eq_opened (congrArg (Reaction.mk []) ?_)
    unfold Evaluation.expect
    rw [hs]
  have hfeeds : Feeds (.group s.session.lookahead.position) s
      (nested s.session.lookahead.position expression s.advance) := feeds_nested rfl hexpression
  refine Agrees.before ?_ (.advance htake)
  generalize hresult : nested s.session.lookahead.position expression s.advance = result at hfeeds
  cases hfeeds with
  | @returns value s' hkept hnone hfollow =>
    rw [bind_ok hresult, lookahead_bind]
    have hreact (goal : Level) (stack : List Pending) :
        Evaluation.react ⟨goal, s'.session.maxDepth, .group s.session.lookahead.position :: stack,
          s'.depth + 1, some value⟩ s'.session.lookahead =
          if s'.session.lookahead.token = .closing then
            ⟨[], .proceed ⟨goal, s'.session.maxDepth, stack, s'.depth, some value⟩⟩
          else ⟨[], .stop (.error ⟨.unmatchedParenthesis, s.session.lookahead.position⟩)⟩ := by
      show Evaluation.settle _ _ _ _ _ _ = _
      rw [Evaluation.settle, Evaluation.awaited, hnone]
      rfl
    by_cases hclosing : s'.session.lookahead.token = .closing
    · rw [if_pos hclosing, advance_bind, pure_run]
      have hnext : s'.session.lookahead.token ≠ .finish := by simp [hclosing]
      refine .returns (hkept.trans (.advance hnext)) (continues?_primary _) fun goal stack _ => ?_
      rw [hopened, hfollow]
      exact Session.result_proceed ((hreact goal stack).trans (if_pos hclosing))
    · rw [if_neg hclosing, throw_run]
      refine .fails hkept fun goal stack _ => ?_
      rw [hopened, hfollow]
      exact Session.result_stop ((hreact goal stack).trans (if_neg hclosing))
  | fails hkept hfollow =>
    rw [bind_error hresult]
    exact .fails hkept fun goal stack _ => (hopened goal stack).trans (hfollow goal stack)

/-- A number, or an expression in parentheses. -/
theorem reads_primary {grouping : Proc Float}
    (hgrouping : s.session.lookahead.token = .opening → Reads .primary s grouping) :
    Reads .primary s (lookahead >>= fun t =>
      match t.token with
      | .number value => advance >>= fun _ => pure value
      | .opening => grouping
      | .invalid => throw ⟨.invalidCharacter, t.position⟩
      | _ => throw ⟨.unexpectedToken, t.position⟩) := by
  rw [Reads, lookahead_bind]
  have hstop (kind : ErrorKind)
      (hexpect : ∀ goal stack, Wants .primary s.session.lookahead goal stack →
        Evaluation.expect goal s.session.maxDepth stack s.depth s.session.lookahead =
          .stop (.error ⟨kind, s.session.lookahead.position⟩)) :
      Agrees .primary (Wants .primary s.session.lookahead)
        (fun goal stack => s.follow goal stack none) s
        (some (.error ⟨kind, s.session.lookahead.position⟩, s)) :=
    .fails (.refl s) fun goal stack hwants =>
      Session.result_stop (congrArg (Reaction.mk []) (hexpect goal stack hwants))
  have hsign (goal : Level) (stack : List Pending)
      (hwants : Wants .primary s.session.lookahead goal stack)
      (hop : s.session.lookahead.token.unaryOp? ≠ none) :
      ¬ .factor ≤ Evaluation.awaited goal stack :=
    fun hfactor => absurd (hwants.sign hop hfactor) (by decide)
  cases htoken : s.session.lookahead.token with
  | number value =>
    have htake : s.session.lookahead.token ≠ .finish := by
      rw [htoken]
      exact nofun
    refine .returns (.advance htake) (continues?_primary _) fun goal stack _ => ?_
    refine Session.result_proceed (congrArg (Reaction.mk []) ?_)
    unfold Evaluation.expect
    rw [htoken]
    rfl
  | opening => exact hgrouping htoken
  | invalid =>
    refine hstop _ fun goal stack _ => ?_
    unfold Evaluation.expect
    rw [htoken]
  | plus | minus =>
    refine hstop _ fun goal stack hwants => ?_
    have hlow := hsign goal stack hwants (by rw [htoken]; exact nofun)
    unfold Evaluation.expect
    rw [htoken]
    exact if_neg hlow
  | star | slash | power | closing | finish =>
    refine hstop _ fun goal stack _ => ?_
    unfold Evaluation.expect
    rw [htoken]
    rfl

end

/-- The level of what a procedure reads. -/
def Procedure.level : Procedure → Level
  | .expression => .expression
  | .term => .term
  | .factor => .factor
  | .power => .power
  | .primary | .grouping => .primary

/-- The number of calls that are active at most while a procedure opens no level. -/
def Procedure.height : Procedure → Nat
  | .expression => 6
  | .term => 5
  | .factor => 4
  | .power => 3
  | .primary => 2
  | .grouping => 1

/-- Within the budget of six calls for each level that may still be opened, a procedure reads an
operand of its level. -/
theorem call_reads {budget : Nat} {procedure : Procedure} {s : State}
    (hdepth : s.depth ≤ s.session.maxDepth)
    (hbudget : procedure.height + 6 * (s.session.maxDepth - s.depth) ≤ budget)
    (hgrouping : procedure = .grouping → s.session.lookahead.token = .opening) :
    Reads procedure.level s (call budget procedure) := by
  induction budget generalizing procedure s with
  | zero => cases procedure <;> simp [Procedure.height] at hbudget
  | succ budget ih =>
    have hlater (q : Procedure) (hq : q.height + 1 ≤ procedure.height) (hne : q ≠ .grouping)
        (s' : State) (hkept : Kept s s') : Reads q.level s' (call budget q) := by
      refine ih (by rw [hkept.depth, hkept.maxDepth]; exact hdepth) ?_ fun h => absurd h hne
      rw [hkept.depth, hkept.maxDepth]
      omega
    have hdeeper (q : Procedure) (hq : q.height ≤ procedure.height + 5) (hne : q ≠ .grouping)
        (s' : State) (hkept : Kept s s') (hroom : s'.depth < s'.session.maxDepth) :
        Reads q.level s'.advance.enter (call budget q) := by
      have hmax := hkept.maxDepth
      have hkeep := hkept.depth
      refine ih hroom ?_ fun h => absurd h hne
      show q.height + 6 * (s'.session.maxDepth - (s'.depth + 1)) ≤ budget
      omega
    cases procedure with
    | expression =>
      exact reads_chain (.inr rfl) fun s' hkept => hlater .term (Nat.le_refl _) nofun s' hkept
    | term =>
      exact reads_chain (.inl rfl) fun s' hkept => hlater .factor (Nat.le_refl _) nofun s' hkept
    | factor =>
      exact reads_factor (hlater .power (Nat.le_refl _) nofun s (.refl s))
        (hdeeper .factor (by decide) nofun s (.refl s))
    | power =>
      exact reads_power (hlater .primary (Nat.le_refl _) nofun s (.refl s))
        fun s' hkept => hdeeper .power (by decide) nofun s' hkept
    | primary =>
      refine reads_primary fun hopening => ?_
      have hbudget : 1 + 6 * (s.session.maxDepth - s.depth) ≤ budget := by
        have : 2 + 6 * (s.session.maxDepth - s.depth) ≤ budget + 1 := hbudget
        omega
      have hgroup : Reads Procedure.grouping.level s (call budget .grouping) :=
        ih hdepth hbudget fun _ => hopening
      exact hgroup
    | grouping =>
      exact reads_grouping (hgrouping rfl)
        (hdeeper .expression (by decide) nofun s (.refl s))

/-! ## Calls from outside -/

/-- The procedure of a level reads operands of that level. -/
theorem Procedure.level_ofLevel (goal : Level) : (ofLevel goal).level = goal := by
  cases goal <;> rfl

/-- A whole operand with nothing on the stack is the value of the call. -/
theorem follow_nil {goal : Level} {s : State} {value : Float}
    (h : Evaluation.continues? goal s.session.lookahead.token = none) :
    s.follow goal [] (some value) = (.ok value, s.session) := by
  have hreact : Evaluation.react ⟨goal, s.session.maxDepth, [], s.depth, some value⟩
      s.session.lookahead = ⟨[], .stop (.ok value)⟩ := by
    show Evaluation.settle _ _ _ _ _ _ = _
    rw [Evaluation.settle, Evaluation.awaited, h]
  exact Session.result_stop hreact

/-- With six calls for each level the procedure of a level comes to what an evaluation of the level
comes to. No level stays open, and never more were open than the limit says. -/
theorem call_eq (goal : Level) {budget : Nat} {s : State} (hdepth : s.depth = 0)
    (hdeepest : s.deepest ≤ s.session.maxDepth)
    (hbudget : 6 * (s.session.maxDepth + 1) ≤ budget) :
    ∃ s', call budget (.ofLevel goal) s = some ((s.session.parse goal).outcome, s') ∧
      s'.session = (s.session.parse goal).session ∧ s'.depth = 0 ∧
      s'.session.maxDepth = s.session.maxDepth ∧ s'.deepest ≤ s'.session.maxDepth := by
  have henough : (Procedure.ofLevel goal).height + 6 * (s.session.maxDepth - s.depth) ≤ budget := by
    have hheight : (Procedure.ofLevel goal).height ≤ 6 := by cases goal <;> decide
    omega
  have hreads := call_reads (by omega) henough fun h => by cases goal <;> cases h
  rw [Procedure.level_ofLevel, Reads] at hreads
  have hwants : Wants goal s.session.lookahead goal [] := ⟨Nat.le_refl _, fun _ h => h⟩
  have hstart : s.follow goal [] none = (s.session.parse goal).result := by
    rw [State.follow, hdepth]
    rfl
  generalize call budget (.ofLevel goal) s = result at hreads
  cases hreads with
  | @returns value s' hkept hnone hfollow =>
    have heq := hstart.symm.trans ((hfollow goal [] hwants).trans (follow_nil hnone))
    injection heq with houtcome hsession
    refine ⟨s', by rw [houtcome], hsession.symm, hkept.depth.trans hdepth, hkept.maxDepth, ?_⟩
    have hdeep := hkept.deepest
    rw [hkept.maxDepth]
    omega
  | @fails e s' hkept hfollow =>
    have heq := hstart.symm.trans (hfollow goal [] hwants)
    injection heq with houtcome hsession
    refine ⟨s', by rw [houtcome], hsession.symm, hkept.depth.trans hdepth, hkept.maxDepth, ?_⟩
    have hdeep := hkept.deepest
    rw [hkept.maxDepth]
    omega

/-- A call from outside comes to what an evaluation of its level comes to. No level stays open, and
never more were open than the limit says. -/
theorem parse_eq (goal : Level) {s : State} (hdepth : s.depth = 0)
    (hdeepest : s.deepest ≤ s.session.maxDepth) :
    ∃ s', parse goal s = some ((s.session.parse goal).outcome, s') ∧
      s'.session = (s.session.parse goal).session ∧ s'.depth = 0 ∧
      s'.session.maxDepth = s.session.maxDepth ∧ s'.deepest ≤ s'.session.maxDepth :=
  call_eq goal hdepth hdeepest (Nat.le_refl _)

end Descent

end Reckon
