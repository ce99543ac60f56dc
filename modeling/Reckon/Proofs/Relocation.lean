import Mathlib.Data.List.Forall2
import Reckon.Proofs.Course

/-!
# Tokens at other positions

Positions are carried along by an evaluation and decide about nothing. `Evaluation.Matches R` says
that two evaluations are the same but for their positions, which are related by `R` one by one, and
a turn at tokens that match in this way preserves it (`Evaluation.Matches.react`). So two courses
over matching tokens come to the same value, or to errors of the same kind at related positions
(`Evaluation.Matches.course`), whatever `R` is. With the positions of the tokens of the same index
for `R` this is `evaluateWith_of_same_tokens`: what a text comes to depends on its tokens and not on
how they are spelled or laid out.
-/

namespace Reckon

/-- The same token, at related positions. -/
structure Placed.Matches (R : Nat → Nat → Prop) (t u : Placed) : Prop where
  token : t.token = u.token
  position : R t.position u.position

/-- The same operator with the same left operand, or a parenthesis each, at related positions. -/
inductive Pending.Matches (R : Nat → Nat → Prop) : Pending → Pending → Prop
  | binary {p q : Nat} (op : BinaryOp) (left : Float) : R p q →
      Matches R (.binary op left p) (.binary op left q)
  | unary {p q : Nat} (op : UnaryOp) : R p q → Matches R (.unary op p) (.unary op q)
  | group {p q : Nat} : R p q → Matches R (.group p) (.group q)

/-- The same value, or errors of the same kind at related positions. -/
inductive Outcome.Matches (R : Nat → Nat → Prop) : Outcome → Outcome → Prop
  | ok (value : Float) : Matches R (.ok value) (.ok value)
  | error {p q : Nat} (kind : ErrorKind) : R p q → Matches R (.error ⟨kind, p⟩) (.error ⟨kind, q⟩)

/-- The same evaluation but for the positions of what is pending, which are related. -/
inductive Evaluation.Matches (R : Nat → Nat → Prop) : Evaluation → Evaluation → Prop
  | mk {stack stack' : List Pending} (goal : Level) (maxDepth depth : Nat)
      (operand : Option Float) : List.Forall₂ (Pending.Matches R) stack stack' →
      Matches R ⟨goal, maxDepth, stack, depth, operand⟩ ⟨goal, maxDepth, stack', depth, operand⟩

/-- The same verdict on matching evaluations. -/
inductive Verdict.Matches (R : Nat → Nat → Prop) : Verdict → Verdict → Prop
  | proceed {e f : Evaluation} : e.Matches R f → Matches R (.proceed e) (.proceed f)
  | refuse {p q : Nat} (kind : ErrorKind) : R p q →
      Matches R (.refuse ⟨kind, p⟩) (.refuse ⟨kind, q⟩)
  | stop {o o' : Outcome} : Outcome.Matches R o o' → Matches R (.stop o) (.stop o')

/-! ## What is pending -/

namespace Pending.Matches

variable {R : Nat → Nat → Prop} {p q : Pending}

/-- Operators that match wait for the same level. -/
theorem awaits_eq (h : p.Matches R q) : p.awaits = q.awaits := by
  cases h <;> rfl

/-- If one of them nests, so does the other. -/
theorem nests_eq (h : p.Matches R q) : p.nests = q.nests := by
  cases h <;> rfl

/-- They open the same levels. -/
theorem levels_eq (h : p.Matches R q) : p.levels = q.levels := by
  rw [levels, levels, h.nests_eq]

/-- Their positions are related. -/
theorem position (h : p.Matches R q) : R p.position q.position := by
  cases h <;> assumption

/-- The same is applied, and a failure is blamed on related positions. -/
theorem application?_cases (h : p.Matches R q) (value : Float) :
    (p.application? value = none ∧ q.application? value = none) ∨
      ∃ a b, p.application? value = some a ∧ q.application? value = some b ∧
        Outcome.Matches R a.outcome b.outcome := by
  cases h with
  | group => exact .inl ⟨rfl, rfl⟩
  | unary op => exact .inr ⟨_, _, rfl, rfl, .ok (op.apply value)⟩
  | binary op left hposition =>
    refine .inr ⟨_, _, rfl, rfl, ?_⟩
    simp only [Application.outcome]
    cases op.apply left value with
    | ok result => exact .ok result
    | error kind => exact .error kind hposition

end Pending.Matches

/-! ## Turns -/

namespace Evaluation

section
variable {R : Nat → Nat → Prop} {stack stack' : List Pending} {p q : Pending} {t u : Placed}

/-- Stacks that match wait for the same level. -/
theorem awaited_eq_of_matches (h : List.Forall₂ (Pending.Matches R) stack stack') (goal : Level) :
    awaited goal stack = awaited goal stack' := by
  cases h with
  | nil => rfl
  | cons hp _ => exact hp.awaits_eq

/-- Putting an operator on stacks that match comes to verdicts that match. -/
theorem push_matches (h : List.Forall₂ (Pending.Matches R) stack stack') (hp : p.Matches R q)
    (goal : Level) (maxDepth depth : Nat) :
    (push goal maxDepth stack depth p).Matches R (push goal maxDepth stack' depth q) := by
  unfold push
  rw [hp.nests_eq, hp.levels_eq]
  split
  · exact .refuse _ hp.position
  · exact .proceed (.mk goal maxDepth _ none (.cons hp h))

/-- Where an operand has to come, tokens that match have verdicts that match. -/
theorem expect_matches (h : List.Forall₂ (Pending.Matches R) stack stack') (ht : t.Matches R u)
    (goal : Level) (maxDepth depth : Nat) :
    (expect goal maxDepth stack depth t).Matches R (expect goal maxDepth stack' depth u) := by
  obtain ⟨token, position⟩ := t
  obtain ⟨_, position'⟩ := u
  obtain ⟨rfl, hposition⟩ := ht
  cases token with
  | number value => exact .proceed (.mk goal maxDepth depth _ h)
  | opening => exact push_matches h (.group hposition) goal maxDepth depth
  | plus | minus =>
    simp only [expect, Token.unaryOp?, awaited_eq_of_matches h]
    split
    · exact push_matches h (.unary _ hposition) goal maxDepth depth
    · exact .stop (.error _ hposition)
  | star | slash | power | closing | finish | invalid => exact .stop (.error _ hposition)

/-- Behind operands of one value, tokens that match have verdicts that match. -/
theorem settle_matches (h : List.Forall₂ (Pending.Matches R) stack stack') (ht : t.Matches R u)
    (goal : Level) (maxDepth depth : Nat) (value : Float) :
    (settle goal maxDepth t stack depth value).verdict.Matches R
      (settle goal maxDepth u stack' depth value).verdict := by
  induction h generalizing depth value with
  | nil =>
    unfold settle
    rw [ht.token]
    split
    · exact push_matches .nil (.binary _ value ht.position) goal maxDepth depth
    · exact .stop (.ok value)
  | @cons p q below below' hp hbelow ih =>
    unfold settle
    rw [ht.token, awaited_eq_of_matches (.cons hp hbelow)]
    split
    · exact push_matches (.cons hp hbelow) (.binary _ value ht.position) goal maxDepth depth
    · rcases hp.application?_cases value with ⟨hnone, hnone'⟩ | ⟨a, b, ha, hb, houtcome⟩
      · simp only [hnone, hnone', hp.levels_eq]
        split
        · exact .proceed (.mk goal maxDepth _ _ hbelow)
        · exact .stop (.error _ hp.position)
      · simp only [ha, hb, hp.levels_eq]
        generalize a.outcome = o, b.outcome = o' at houtcome
        cases houtcome with
        | ok result => exact ih (depth - q.levels) result
        | error kind hposition => exact .stop (.error kind hposition)

/-- Evaluations that match make the same of tokens that match. -/
theorem Matches.react {e f : Evaluation} (h : e.Matches R f) (ht : t.Matches R u) :
    (e.react t).verdict.Matches R (f.react u).verdict := by
  cases h with
  | mk goal maxDepth depth operand hstack =>
    cases operand with
    | none => exact expect_matches hstack ht goal maxDepth depth
    | some value => exact settle_matches hstack ht goal maxDepth depth value

/-! ## Courses -/

/-- What stands behind an outcome is an error in both, or in none. -/
theorem checkEnd_matches (ht : t.Matches R u) {o o' : Outcome} (h : Outcome.Matches R o o') :
    Outcome.Matches R (o.bind (Session.checkEnd t)) (o'.bind (Session.checkEnd u)) := by
  cases h with
  | error kind hposition => exact .error kind hposition
  | ok value =>
    obtain ⟨token, position⟩ := t
    obtain ⟨_, position'⟩ := u
    obtain ⟨rfl, hposition⟩ := ht
    cases token with
    | finish => exact .ok value
    | number | plus | minus | star | slash | power | opening | closing | invalid =>
      exact .error _ hposition

/-- Evaluations that match come to the same over tokens that match, if they do so over what stands
behind these. What counts as the same may be anything that includes matching outcomes. -/
theorem Matches.course_append (Same : Outcome → Outcome → Prop)
    (hsame : ∀ {o o' : Outcome}, Outcome.Matches R o o' → Same o o')
    {ts ts' us us' : List Placed}
    (hts : List.Forall₂ (Placed.Matches R) ts ts')
    (hbehind : (∀ t ∈ ts, t.token ≠ .finish) →
      ∀ {e f : Evaluation}, e.Matches R f → Same (e.course us).1 (f.course us').1)
    {e f : Evaluation} (h : e.Matches R f) :
    Same (e.course (ts ++ us)).1 (f.course (ts' ++ us')).1 := by
  induction hts generalizing e f with
  | nil => exact hbehind nofun h
  | @cons t u ts ts' ht _ ih =>
    have hverdict := h.react ht
    rw [List.cons_append, List.cons_append]
    generalize hreact : (e.react t).verdict = verdict, hreact' : (f.react u).verdict = verdict'
      at hverdict
    cases hverdict with
    | proceed hnext =>
      have hopen := (token_ne_of_taken hreact nofun).1
      rw [outcome_proceed hreact, outcome_proceed hreact']
      exact ih (fun hts => hbehind (List.forall_mem_cons.2 ⟨hopen, hts⟩)) hnext
    | refuse kind hposition =>
      rw [outcome_refuse hreact, outcome_refuse hreact']
      exact hsame (.error kind hposition)
    | stop houtcome =>
      rw [outcome_stop hreact, outcome_stop hreact']
      exact hsame (checkEnd_matches ht houtcome)

/-- Evaluations that match come to the same over matching tokens up to the end of a text. -/
theorem Matches.course {e f : Evaluation} (h : e.Matches R f) {ts us : List Placed}
    (hts : List.Forall₂ (Placed.Matches R) ts us) (hfinish : ∃ t ∈ ts, t.token = .finish) :
    Outcome.Matches R (e.course ts).1 (f.course us).1 := by
  have hnone (hopen : ∀ t ∈ ts, t.token ≠ .finish) {e f : Evaluation} (_ : e.Matches R f) :
      Outcome.Matches R (e.course []).1 (f.course []).1 := by
    obtain ⟨t, ht, htok⟩ := hfinish
    exact absurd htok (hopen t ht)
  have hcourse := h.course_append (Outcome.Matches R) id hts hnone
  rwa [List.append_nil, List.append_nil] at hcourse

end

end Evaluation

/-! ## Texts -/

/-- The positions of the tokens with the same index in two lists. -/
def SameIndex (ts us : List Placed) (p q : Nat) : Prop :=
  ∃ (j : Nat) (t u : Placed),
    ts[j]? = some t ∧ us[j]? = some u ∧ t.position = p ∧ u.position = q

/-- Tokens of the same kinds match by their indices. -/
theorem forall₂_matches_sameIndex {ts us : List Placed}
    (h : ts.map Placed.token = us.map Placed.token) :
    List.Forall₂ (Placed.Matches (SameIndex ts us)) ts us := by
  have hlength : ts.length = us.length := by simpa using congrArg List.length h
  refine List.forall₂_iff_get.2 ⟨hlength, fun j hj hj' => ⟨?_, j, ts[j], us[j], ?_, ?_, rfl, rfl⟩⟩
  · have htoken := congrArg (·[j]?) h
    simpa [hj, hj'] using htoken
  · exact List.getElem?_eq_getElem hj
  · exact List.getElem?_eq_getElem hj'

/-- What a text comes to depends on nothing but its tokens: texts with the same tokens have the same
value, or errors of the same kind, which are blamed on tokens with the same index. -/
theorem evaluateWith_of_same_tokens {source other : String}
    (h : (tokens source).map Placed.token = (tokens other).map Placed.token) (maxDepth : Nat) :
    (∃ value, evaluateWith source maxDepth = .ok value ∧ evaluateWith other maxDepth = .ok value) ∨
      ∃ (kind : ErrorKind) (j : Nat) (t u : Placed),
        (tokens source)[j]? = some t ∧ (tokens other)[j]? = some u ∧
        evaluateWith source maxDepth = .error ⟨kind, t.position⟩ ∧
        evaluateWith other maxDepth = .error ⟨kind, u.position⟩ := by
  have hcourse : Outcome.Matches (SameIndex (tokens source) (tokens other))
      (evaluateWith source maxDepth) (evaluateWith other maxDepth) := by
    rw [evaluateWith_eq_course, evaluateWith_eq_course]
    exact Evaluation.Matches.course (.mk .expression maxDepth 0 none .nil)
      (forall₂_matches_sameIndex h) (exists_finish_mem_tokens source)
  generalize evaluateWith source maxDepth = o, evaluateWith other maxDepth = o' at hcourse
  cases hcourse with
  | ok value => exact .inl ⟨value, rfl, rfl⟩
  | error kind hposition =>
    obtain ⟨j, t, u, ht, hu, rfl, rfl⟩ := hposition
    exact .inr ⟨kind, j, t, u, ht, hu, rfl, rfl⟩

/-- The sign, the zeros and the blanks of a failing quotient. -/
theorem evaluateWith_of_same_tokens_quotient :
    (tokens "-(1/0)").map Placed.token = (tokens " - ( 10e-1 / 0.0 )").map Placed.token ∧
      ((∃ value, evaluateWith "-(1/0)" 2 = .ok value ∧
          evaluateWith " - ( 10e-1 / 0.0 )" 2 = .ok value) ∨
        ∃ (kind : ErrorKind) (j : Nat) (t u : Placed),
          (tokens "-(1/0)")[j]? = some t ∧ (tokens " - ( 10e-1 / 0.0 )")[j]? = some u ∧
          evaluateWith "-(1/0)" 2 = .error ⟨kind, t.position⟩ ∧
          evaluateWith " - ( 10e-1 / 0.0 )" 2 = .error ⟨kind, u.position⟩) := by
  have hsame : (tokens "-(1/0)").map Placed.token =
      (tokens " - ( 10e-1 / 0.0 )").map Placed.token := by decide +kernel
  exact ⟨hsame, evaluateWith_of_same_tokens hsame 2⟩

end Reckon
