import Mathlib.Algebra.GroupWithZero.Nat
import Reckon.Proofs.Printing
import Reckon.Proofs.Relocation

/-!
# Putting a value for an expression

What stands in parentheses is evaluated on top of what is pending before them, and that is left as
it was. `Evaluation.Inside` relates the evaluation of an expression on its own to the evaluation
that does the same in a group: a turn preserves the relation, unless the larger stack meets the
nesting limit (`Evaluation.Inside.react`), and at the end of the expression and at the closing
parenthesis both have the same value (`Evaluation.Inside.react_closing`). So a group whose inside
has a value is an operand with that value (`Evaluation.course_group`), whatever stands around it.

`evaluateWith_group_literal` says it of texts: an expression in parentheses may be replaced by a
literal of its value, within any text in front of it and behind it. What stands in front is
evaluated alike, and what stands behind is moved by the difference of the lengths.
-/

namespace Reckon

/-- The number of nesting levels that are open on a stack. -/
def Pending.openLevels (stack : List Pending) : Nat :=
  (stack.map levels).sum

namespace Evaluation

/-- The evaluation of an expression on its own, and the evaluation that does the same inside of a
group which `outer` has opened. -/
inductive Inside (limit : Nat) (outer : Evaluation) (opening : Nat) :
    Evaluation → Evaluation → Prop
  | mk (stack : List Pending) (operand : Option Float) :
      Inside limit outer opening
        ⟨.expression, limit, stack, Pending.openLevels stack, operand⟩
        ⟨outer.goal, outer.maxDepth, stack ++ .group opening :: outer.pending,
          Pending.openLevels stack + (outer.depth + 1), operand⟩

/-- The verdict in the group goes on as the expression does on its own, or it meets the limit. -/
def Follows (limit : Nat) (outer : Evaluation) (opening : Nat) (next : Evaluation)
    (verdict : Verdict) : Prop :=
  (∃ next', verdict = .proceed next' ∧ Inside limit outer opening next next') ∨
    ∃ position, verdict = .refuse ⟨.nestingTooDeep, position⟩

section
variable {limit opening : Nat} {outer next : Evaluation} {stack : List Pending} {p : Pending}
  {t : Placed}

/-- In a group as on its own an expression is wanted at the bottom of the stack. -/
theorem awaited_append (outer : Evaluation) (opening : Nat) (stack : List Pending) :
    awaited outer.goal (stack ++ .group opening :: outer.pending) = awaited .expression stack := by
  cases stack <;> rfl

/-- Completing an operator gives back the levels that it opened. -/
theorem openLevels_sub (p : Pending) (stack : List Pending) (depth : Nat) :
    Pending.openLevels (p :: stack) + depth - p.levels = Pending.openLevels stack + depth := by
  rw [Pending.openLevels, List.map_cons, List.sum_cons, ← Pending.openLevels]
  omega

/-- What is put on the stack inside of a group is put on the one outside. -/
theorem follows_push
    (h : push .expression limit stack (Pending.openLevels stack) p = .proceed next) :
    Follows limit outer opening next
      (push outer.goal outer.maxDepth (stack ++ .group opening :: outer.pending)
        (Pending.openLevels stack + (outer.depth + 1)) p) := by
  have hopen : Pending.openLevels (p :: stack) = Pending.openLevels stack + p.levels := by
    rw [Pending.openLevels, List.map_cons, List.sum_cons, Nat.add_comm, Pending.openLevels]
  unfold push at h ⊢
  split at h
  · cases h
  · cases h
    split
    · exact .inr ⟨_, rfl⟩
    · refine .inl ⟨_, rfl, ?_⟩
      rw [← hopen, Nat.add_right_comm, ← hopen]
      exact .mk (p :: stack) none

/-- Where an operand has to come in a group, the one outside goes on alike. -/
theorem follows_expect
    (h : expect .expression limit stack (Pending.openLevels stack) t = .proceed next) :
    Follows limit outer opening next
      (expect outer.goal outer.maxDepth (stack ++ .group opening :: outer.pending)
        (Pending.openLevels stack + (outer.depth + 1)) t) := by
  obtain ⟨token, position⟩ := t
  cases token with
  | number value =>
    cases h
    exact .inl ⟨_, rfl, .mk stack (some value)⟩
  | opening => exact follows_push h
  | plus | minus =>
    simp only [expect, Token.unaryOp?, awaited_append] at h ⊢
    split at h
    · next hlevel =>
      rw [if_pos hlevel]
      exact follows_push h
    · cases h
  | star | slash | power | closing | finish | invalid => cases h

/-- So it does behind an operand in the group. -/
theorem follows_settle {value : Float}
    (h : (settle .expression limit t stack (Pending.openLevels stack) value).verdict =
      .proceed next) :
    Follows limit outer opening next
      (settle outer.goal outer.maxDepth t (stack ++ .group opening :: outer.pending)
        (Pending.openLevels stack + (outer.depth + 1)) value).verdict := by
  induction stack generalizing value with
  | nil =>
    unfold settle at h ⊢
    rw [awaited_append]
    split at h
    · exact follows_push h
    · cases h
  | cons p below ih =>
    unfold settle at h ⊢
    rw [awaited_append]
    have hdepth : Pending.openLevels (p :: below) - p.levels = Pending.openLevels below :=
      openLevels_sub p below 0
    split at h
    · exact follows_push h
    · simp only [List.cons_append, openLevels_sub, hdepth] at h ⊢
      split at h
      · split at h
        · next hclosing =>
          rw [if_pos hclosing]
          cases h
          exact .inl ⟨_, rfl, .mk below (some value)⟩
        · cases h
      · split at h
        · exact ih h
        · cases h

/-- A token that the expression takes on its own is taken in the group, within the limit. -/
theorem Inside.react {e f : Evaluation} (h : Inside limit outer opening e f)
    (hreact : (e.react t).verdict = .proceed next) :
    Follows limit outer opening next (f.react t).verdict := by
  cases h with
  | mk stack operand =>
    cases operand with
    | none => exact follows_expect hreact
    | some value => exact follows_settle hreact

/-- Where the end of an expression completes its operators, a closing parenthesis does, and it
closes the group. -/
theorem settle_closing_of_finish (outer : Evaluation) (opening : Nat) {finish closing : Placed}
    (hfinish : finish.token = .finish) (hclosing : closing.token = .closing) {value result : Float}
    (h : (settle .expression limit finish stack (Pending.openLevels stack) value).verdict =
      .stop (.ok result)) :
    (settle outer.goal outer.maxDepth closing (stack ++ .group opening :: outer.pending)
        (Pending.openLevels stack + (outer.depth + 1)) value).verdict =
      .proceed { outer with operand := some result } := by
  have hnone (awaited : Level) : continues? awaited closing.token = none := by
    rw [hclosing]
    rfl
  have hnone' (awaited : Level) : continues? awaited finish.token = none := by
    rw [hfinish]
    rfl
  induction stack generalizing value with
  | nil =>
    unfold settle at h ⊢
    simp only [hnone, hnone'] at h ⊢
    cases h
    simp [Pending.application?, hclosing, Pending.openLevels, Pending.levels, Pending.nests]
  | cons p below ih =>
    unfold settle at h ⊢
    have hdepth : Pending.openLevels (p :: below) - p.levels = Pending.openLevels below :=
      openLevels_sub p below 0
    simp only [hnone, hnone', List.cons_append, openLevels_sub, hdepth] at h ⊢
    split at h
    · rw [if_neg (by rw [hfinish]; decide)] at h
      cases h
    · split at h
      · exact ih h
      · cases h

/-- At the end of an expression that has a value, the group is closed with this value. -/
theorem Inside.react_closing {e f : Evaluation} (h : Inside limit outer opening e f)
    {finish closing : Placed} (hfinish : finish.token = .finish)
    (hclosing : closing.token = .closing) {value : Float}
    (hreact : (e.react finish).verdict = .stop (.ok value)) :
    (f.react closing).verdict = .proceed { outer with operand := some value } := by
  cases h with
  | mk stack operand =>
    cases operand with
    | some operand => exact settle_closing_of_finish outer opening hfinish hclosing hreact
    | none =>
      have hstop : expect .expression limit stack (Pending.openLevels stack) finish =
          .stop (.error ⟨.unexpectedToken, finish.position⟩) := by
        unfold expect
        rw [hfinish]
        rfl
      cases hstop.symm.trans hreact

/-! ## Groups -/

/-- An expression that has a value on its own has it in a group, within the limit. -/
theorem Inside.course {e f : Evaluation} (h : Inside limit outer opening e f) {ts : List Placed}
    (hts : ∀ t ∈ ts, t.token ≠ .finish) {finish closing : Placed} (hfinish : finish.token = .finish)
    (hclosing : closing.token = .closing) {value : Float}
    (hvalue : (e.course (ts ++ [finish])).1 = .ok value) (us : List Placed) :
    (f.course (ts ++ closing :: us)).1 =
        (Evaluation.course { outer with operand := some value } us).1 ∨
      ∃ position, (f.course (ts ++ closing :: us)).1 = .error ⟨.nestingTooDeep, position⟩ := by
  induction ts generalizing e f with
  | nil =>
    obtain ⟨outcome, hstop⟩ := react_stops (.inl hfinish) e
    rw [List.nil_append, outcome_stop hstop] at hvalue
    obtain ⟨rfl, -⟩ := Session.bind_checkEnd_eq_ok hvalue
    exact .inl (outcome_proceed (h.react_closing hfinish hclosing hstop) us)
  | cons t ts ih =>
    rw [List.cons_append] at hvalue ⊢
    obtain ⟨hopen, hts⟩ := List.forall_mem_cons.1 hts
    cases hreact : (e.react t).verdict with
    | proceed next =>
      rw [outcome_proceed hreact] at hvalue
      rcases h.react hreact with ⟨next', hnext, hinside⟩ | ⟨position, hrefuse⟩
      · rw [outcome_proceed hnext]
        exact ih hinside hts hvalue
      · exact .inr ⟨position, outcome_refuse hrefuse _⟩
    | refuse error =>
      rw [outcome_refuse hreact] at hvalue
      cases hvalue
    | stop outcome =>
      rw [outcome_stop hreact] at hvalue
      exact absurd (Session.bind_checkEnd_eq_ok hvalue).2 hopen

end

/-- The tokens make up an expression that has the value on its own. -/
structure HasValue (ts : List Placed) (value : Float) : Prop where
  ne_finish : ∀ t ∈ ts, t.token ≠ .finish
  course : ∃ limit finish, finish.token = .finish ∧
    ((start .expression limit).course (ts ++ [finish])).1 = .ok value

/-- A group whose inside has a value on its own is an operand with this value, within the limit. -/
theorem course_group {goal : Level} {maxDepth depth : Nat} {stack : List Pending}
    {opening closing : Placed} (hopening : opening.token = .opening)
    (hclosing : closing.token = .closing) {ts : List Placed} {value : Float}
    (hts : HasValue ts value) (us : List Placed) :
    (course ⟨goal, maxDepth, stack, depth, none⟩ (opening :: (ts ++ closing :: us))).1 =
        (course ⟨goal, maxDepth, stack, depth, some value⟩ us).1 ∨
      ∃ position, (course ⟨goal, maxDepth, stack, depth, none⟩
        (opening :: (ts ++ closing :: us))).1 = .error ⟨.nestingTooDeep, position⟩ := by
  have hreact : (react ⟨goal, maxDepth, stack, depth, none⟩ opening).verdict =
      push goal maxDepth stack depth (.group opening.position) := by
    obtain ⟨token, position⟩ := opening
    obtain rfl : token = .opening := hopening
    rfl
  unfold push at hreact
  split at hreact
  · exact .inr ⟨_, outcome_refuse hreact _⟩
  · obtain ⟨limit, finish, hfinish, hvalue⟩ := hts.course
    have hinside : Inside limit ⟨goal, maxDepth, stack, depth, none⟩ opening.position
        (start .expression limit)
        ⟨goal, maxDepth, .group opening.position :: stack, depth + 1, none⟩ := by
      have hbottom := @Inside.mk limit ⟨goal, maxDepth, stack, depth, none⟩ opening.position [] none
      rwa [Pending.openLevels, List.map_nil, List.sum_nil, Nat.zero_add] at hbottom
    rw [outcome_proceed hreact]
    exact hinside.course hts.ne_finish hfinish hclosing hvalue us

/-- Where neither outcome is that of the nesting limit, they match. -/
def MatchesWithin (R : Nat → Nat → Prop) (o o' : Outcome) : Prop :=
  (∀ p, o ≠ .error ⟨.nestingTooDeep, p⟩) → (∀ p, o' ≠ .error ⟨.nestingTooDeep, p⟩) →
    Outcome.Matches R o o'

/-- Groups with the same value are the same operand to matching evaluations. -/
theorem Matches.course_group {R : Nat → Nat → Prop} {e f : Evaluation} (h : e.Matches R f)
    {opening closing closing' : Placed} (hopening : opening.token = .opening)
    (hposition : R opening.position opening.position) (hclosing : closing.token = .closing)
    (hclosing' : closing'.token = .closing) {ts ts' us us' : List Placed} {value : Float}
    (hts : HasValue ts value) (hts' : HasValue ts' value)
    (hus : List.Forall₂ (Placed.Matches R) us us') (hfinish : ∃ t ∈ us, t.token = .finish) :
    MatchesWithin R (e.course (opening :: (ts ++ closing :: us))).1
      (f.course (opening :: (ts' ++ closing' :: us'))).1 := by
  intro hdeep hdeep'
  have hmatches : opening.Matches R opening := ⟨rfl, hposition⟩
  have hverdict := h.react hmatches
  cases h with
  | @mk stack stack' goal maxDepth depth operand hstack =>
    cases operand with
    | some operand =>
      -- A parenthesis does not go on with an operand that is complete.
      obtain ⟨outcome, hstop⟩ : ∃ outcome,
          (Evaluation.react ⟨goal, maxDepth, stack, depth, some operand⟩ opening).verdict =
            .stop outcome :=
        settle_stops (by rw [hopening]; rfl) (by rw [hopening]; exact nofun) _ _ _ _ _
      rw [hstop] at hverdict
      generalize hstop' : (Evaluation.react ⟨goal, maxDepth, stack', depth, some operand⟩
        opening).verdict = verdict at hverdict
      cases hverdict with
      | stop houtcome =>
        rw [outcome_stop hstop, outcome_stop hstop']
        exact checkEnd_matches hmatches houtcome
    | none =>
      rcases Evaluation.course_group hopening hclosing hts us with heq | ⟨p, hlimit⟩
      · rcases Evaluation.course_group hopening hclosing' hts' us' with heq' | ⟨p, hlimit⟩
        · rw [heq, heq']
          exact Matches.course (.mk goal maxDepth depth (some value) hstack) hus hfinish
        · exact absurd hlimit (hdeep' p)
      · exact absurd hlimit (hdeep p)

end Evaluation

/-! ## Texts -/

/-- Tokens that are moved match, whatever their positions are. -/
theorem forall₂_matches_move (ts : List Placed) (offset : Nat) :
    List.Forall₂ (Placed.Matches fun _ _ => True) ts (ts.map (Placed.move offset)) := by
  rw [List.forall₂_map_right_iff, List.forall₂_same]
  exact fun _ _ => ⟨rfl, trivial⟩

/-- The tokens of a text that has a value have it wherever the text starts. -/
theorem hasValue_body {source : String} {limit : Nat} {value : Float}
    (h : evaluateWith source limit = .ok value) (offset : Nat) :
    Evaluation.HasValue ((body source).map (Placed.move offset)) value := by
  refine ⟨fun t ht => ?_, limit, Placed.move offset ⟨.finish, 1 + source.length⟩, rfl, ?_⟩
  · obtain ⟨u, hu, rfl⟩ := List.mem_map.1 ht
    show u.token ≠ .finish
    exact token_ne_finish_of_mem_body hu
  · rw [← List.map_singleton, ← List.map_append, ← tokens_eq_body_append]
    have hcourse := Evaluation.Matches.course (.mk .expression limit 0 none .nil)
      (forall₂_matches_move (tokens source) offset) (exists_finish_mem_tokens source)
    rw [evaluateWith_eq_course] at h
    change Outcome.Matches _ ((Evaluation.start .expression limit).course (tokens source)).1
      ((Evaluation.start .expression limit).course _).1 at hcourse
    rw [h] at hcourse
    generalize ((Evaluation.start .expression limit).course _).1 = outcome at hcourse ⊢
    cases hcourse
    rfl

/-- Positions in two texts that are the same but for what stands in a group, which has the lengths
`length` and `length'` there: up to the opening parenthesis they are the same, and behind the
closing one they are moved. -/
def Replaced (opening length length' p q : Nat) : Prop :=
  (p ≤ opening ∧ q = p) ∨
    (opening + length + 1 < p ∧ opening + length' + 1 < q ∧ p + length' = q + length)

/-- Texts that are the same but for a group, which has the same value in both, come to the same
within the nesting limit. -/
theorem evaluateWith_group_matches {inside inside' : String} {limit limit' : Nat} {value : Float}
    (h : evaluateWith inside limit = .ok value) (h' : evaluateWith inside' limit' = .ok value)
    (before behind : String) (maxDepth : Nat) :
    Evaluation.MatchesWithin (Replaced (before.length + 1) inside.length inside'.length)
      (evaluateWith (before ++ "(" ++ inside ++ ")" ++ behind) maxDepth)
      (evaluateWith (before ++ "(" ++ inside' ++ ")" ++ behind) maxDepth) := by
  rw [evaluateWith_eq_course, evaluateWith_eq_course, tokens_group, tokens_group]
  have hbefore : List.Forall₂
      (Placed.Matches (Replaced (before.length + 1) inside.length inside'.length))
      (body before) (body before) := by
    rw [List.forall₂_same]
    exact fun t ht => ⟨rfl, .inl ⟨Nat.le_succ_of_le (position_le_of_mem_body ht), rfl⟩⟩
  have hbehind : List.Forall₂
      (Placed.Matches (Replaced (before.length + 1) inside.length inside'.length))
      ((tokens behind).map (Placed.move (before.length + inside.length + 2)))
      ((tokens behind).map (Placed.move (before.length + inside'.length + 2))) := by
    rw [List.forall₂_map_left_iff, List.forall₂_map_right_iff, List.forall₂_same]
    intro t ht
    have hpos := one_le_position_of_mem_tokens ht
    refine ⟨rfl, .inr ?_⟩
    simp only [Placed.move]
    omega
  have hfinish : ∃ t ∈ (tokens behind).map (Placed.move (before.length + inside.length + 2)),
      t.token = .finish := by
    obtain ⟨t, ht, htok⟩ := exists_finish_mem_tokens behind
    exact ⟨_, List.mem_map_of_mem ht, htok⟩
  refine Evaluation.Matches.course_append _ (fun hmatches _ _ => hmatches) hbefore
    (fun _ _ _ hmatches => ?_) (.mk .expression maxDepth 0 none .nil)
  exact hmatches.course_group rfl (.inl ⟨Nat.le_refl _, rfl⟩) rfl rfl (hasValue_body h _)
    (hasValue_body h' _) hbehind hfinish

/-- An expression in parentheses can be replaced by a literal of its value in any text. Within the
nesting limit both texts have the same value, or errors of the same kind: at the same position up to
the opening parenthesis, and behind the closing one at positions that differ by the difference of
the lengths. -/
theorem evaluateWith_group_literal {inside : String} {limit : Nat} (l : Literal)
    (h : evaluateWith inside limit = .ok l.value) (before behind : String) {maxDepth : Nat}
    (hdeep : ∀ p, evaluateWith (before ++ "(" ++ inside ++ ")" ++ behind) maxDepth ≠
      .error ⟨.nestingTooDeep, p⟩)
    (hdeep' : ∀ p,
      evaluateWith (before ++ "(" ++ String.ofList l.numeral.text ++ ")" ++ behind) maxDepth ≠
        .error ⟨.nestingTooDeep, p⟩) :
    (∃ value,
      evaluateWith (before ++ "(" ++ inside ++ ")" ++ behind) maxDepth = .ok value ∧
      evaluateWith (before ++ "(" ++ String.ofList l.numeral.text ++ ")" ++ behind) maxDepth =
        .ok value) ∨
    ∃ (kind : ErrorKind) (p q : Nat),
      evaluateWith (before ++ "(" ++ inside ++ ")" ++ behind) maxDepth = .error ⟨kind, p⟩ ∧
      evaluateWith (before ++ "(" ++ String.ofList l.numeral.text ++ ")" ++ behind) maxDepth =
        .error ⟨kind, q⟩ ∧
      ((p ≤ (before ++ "(").length ∧ q = p) ∨
        ((before ++ "(" ++ inside ++ ")").length < p ∧
          (before ++ "(" ++ String.ofList l.numeral.text ++ ")").length < q ∧
          p + l.numeral.text.length = q + inside.length)) := by
  have hliteral : evaluateWith (String.ofList l.numeral.text) 0 = .ok l.value :=
    (Ast.literal l).evaluateWith_eq_evalAt (Nat.zero_le 0)
  have hmatches := evaluateWith_group_matches h hliteral before behind maxDepth hdeep hdeep'
  generalize evaluateWith (before ++ "(" ++ inside ++ ")" ++ behind) maxDepth = o,
    evaluateWith (before ++ "(" ++ String.ofList l.numeral.text ++ ")" ++ behind) maxDepth = o'
    at hmatches
  cases hmatches with
  | ok value => exact .inl ⟨value, rfl, rfl⟩
  | @error p q kind hposition =>
    refine .inr ⟨kind, p, q, rfl, rfl, ?_⟩
    have hopening : "(".length = 1 := rfl
    have hclosing : ")".length = 1 := rfl
    simp only [Replaced, String.length_append, String.length_ofList, hopening, hclosing]
      at hposition ⊢
    omega

/-- A quotient with a zero divisor behind the group. -/
theorem evaluateWith_group_literal_quotient :
    ∃ (l : Literal) (kind : ErrorKind) (p q : Nat),
      l.numeral.text = ['2'] ∧ evaluateWith "1 + 1" 0 = .ok l.value ∧
      evaluateWith ("8 * " ++ "(" ++ "1 + 1" ++ ")" ++ " / 0") 1 = .error ⟨kind, p⟩ ∧
      evaluateWith ("8 * " ++ "(" ++ String.ofList l.numeral.text ++ ")" ++ " / 0") 1 =
        .error ⟨kind, q⟩ ∧
      p + 1 = q + 5 := by
  let two : Literal := ⟨_, 2, .digit '2' rfl, by decide +kernel⟩
  have hvalue : evaluateWith "1 + 1" 0 = .ok two.value := by decide +kernel
  have hsum : evaluateWith ("8 * " ++ "(" ++ "1 + 1" ++ ")" ++ " / 0") 1 =
      .error ⟨.divisionByZero, 13⟩ := by decide +kernel
  have htwo : evaluateWith ("8 * " ++ "(" ++ String.ofList two.numeral.text ++ ")" ++ " / 0") 1 =
      .error ⟨.divisionByZero, 9⟩ := by decide +kernel
  have hdeep (p : Nat) : evaluateWith ("8 * " ++ "(" ++ "1 + 1" ++ ")" ++ " / 0") 1 ≠
      .error ⟨.nestingTooDeep, p⟩ := by
    rw [hsum]
    nofun
  have hdeep' (p : Nat) :
      evaluateWith ("8 * " ++ "(" ++ String.ofList two.numeral.text ++ ")" ++ " / 0") 1 ≠
        .error ⟨.nestingTooDeep, p⟩ := by
    rw [htwo]
    nofun
  rcases evaluateWith_group_literal two hvalue "8 * " " / 0" hdeep hdeep' with
    ⟨value, hok, -⟩ | ⟨kind, p, q, hp, hq, hposition⟩
  · cases hsum.symm.trans hok
  · refine ⟨two, kind, p, q, rfl, hvalue, hp, hq, ?_⟩
    cases hsum.symm.trans hp
    rcases hposition with ⟨hle, -⟩ | ⟨-, -, hmoved⟩
    · exact absurd hle (by decide)
    · exact hmoved

end Reckon
