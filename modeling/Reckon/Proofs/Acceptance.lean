import Reckon.Proofs.Parsing.Completeness
import Reckon.Proofs.TwoPhase

/-!
# Which texts have a value

A text parses to a tree exactly if its tokens are derived from that tree and the tree nests within
the limit (`parseText_eq_ok_iff`), and then it comes to what the tree comes to
(`evaluateWith_eq_eval`). It has a value exactly if in addition the tree has one, and that is the
value of the text (`evaluateWith_eq_ok_iff`).
-/

namespace Reckon

/-! ## Trees with a value -/

/-- The operator at the root gives an expression its value. -/
theorem Expr.eval_of_application? {x : Expr} {a : Application} (h : x.application? = some a) :
    x.eval = a.outcome := by
  cases x with
  | number | group => cases h
  | unary op position operand =>
    rw [application?] at h
    split at h
    · next value hvalue =>
      cases h
      rw [eval, hvalue]
      rfl
    · cases h
  | binary op left position right =>
    rw [application?] at h
    split at h
    · next a b ha hb =>
      cases h
      rw [eval, ha, hb]
      rfl
    · cases h

/-- In an expression with a value all operators have one. -/
theorem Expr.eval_of_mem_operations {x y : Expr} {value : Float} (h : x.eval = .ok value)
    (hy : y ∈ x.operations) : ∃ result, y.eval = .ok result := by
  induction x generalizing value with
  | number => cases hy
  | group opening body closing ih => exact ih h hy
  | unary op position operand ih =>
    rcases List.mem_append.1 hy with hy | hy
    · cases hoperand : operand.eval with
      | ok result => exact ih hoperand hy
      | error e =>
        rw [eval, hoperand] at h
        cases h
    · rw [List.mem_singleton.1 hy]
      exact ⟨value, h⟩
  | binary op left position right ihl ihr =>
    cases hleft : left.eval with
    | error e =>
      rw [eval, hleft] at h
      cases h
    | ok a =>
      cases hright : right.eval with
      | error e =>
        rw [eval, hleft, hright] at h
        cases h
      | ok b =>
        rcases List.mem_append.1 hy with hy | hy
        · rcases List.mem_append.1 hy with hy | hy
          · exact ihl hleft hy
          · exact ihr hright hy
        · rw [List.mem_singleton.1 hy]
          exact ⟨value, h⟩

/-- Operators that all have values do not fail. -/
theorem Performs.failure_eq_none {xs : List Expr} {as : List Application}
    {failure : Option EvalError} (h : Performs xs as failure)
    (hvalue : ∀ x ∈ xs, ∃ value, x.eval = .ok value) : failure = none := by
  induction h with
  | nil => rfl
  | cons _ _ _ ih => exact ih fun x hx => hvalue x (List.mem_cons_of_mem _ hx)
  | fail hx ha =>
    obtain ⟨value, heval⟩ := hvalue _ (List.mem_cons_self ..)
    rw [Expr.eval_of_application? hx, ha] at heval
    cases heval

/-- The error that an outcome is, if it is one. -/
def failure? : Outcome → Option EvalError
  | .ok _ => none
  | .error e => some e

/-- The operator at the root fails if the expression does. -/
theorem Performs.root {x : Expr} {a : Application} (h : x.application? = some a) :
    Performs [x] [a] (failure? x.eval) := by
  rw [Expr.eval_of_application? h]
  cases houtcome : a.outcome with
  | ok value => exact .cons h houtcome .nil
  | error e => exact .fail h houtcome

/-- Applying the operators of an expression in order fails as evaluating it does. -/
theorem Expr.performs_operations (x : Expr) :
    ∃ as, Performs x.operations as (failure? x.eval) := by
  induction x with
  | number => exact ⟨[], .nil⟩
  | group opening body closing ih => exact ih
  | unary op position operand ih =>
    obtain ⟨as, hoperand⟩ := ih
    cases hvalue : operand.eval with
    | error e =>
      rw [hvalue] at hoperand
      rw [eval, hvalue]
      exact ⟨as, hoperand.append_of_failure _⟩
    | ok value =>
      rw [hvalue] at hoperand
      have happlication : (unary op position operand).application? =
          some (.unary op value position) := by rw [application?, hvalue]
      exact ⟨_, hoperand.append (.root happlication)⟩
  | binary op left position right ihl ihr =>
    obtain ⟨as, hleft⟩ := ihl
    obtain ⟨bs, hright⟩ := ihr
    cases ha : left.eval with
    | error e =>
      rw [ha] at hleft
      rw [eval, ha]
      exact ⟨as, (hleft.append_of_failure _).append_of_failure _⟩
    | ok a =>
      rw [ha] at hleft
      cases hb : right.eval with
      | error e =>
        rw [hb] at hright
        rw [eval, ha, hb]
        exact ⟨as ++ bs, (hleft.append hright).append_of_failure _⟩
      | ok b =>
        rw [hb] at hright
        have happlication : (binary op left position right).application? =
            some (.binary op a b position) := by rw [application?, ha, hb]
        exact ⟨_, (hleft.append hright).append (.root happlication)⟩

/-! ## Texts that parse -/

/-- An accepted tree is the one that was read, and only the end of the text is behind it. -/
theorem Parsing.checkEnd_eq_ok {rest : List Placed} {x y : Expr} (h : checkEnd rest x = .ok y) :
    x = y ∧ ∀ t after, rest = t :: after → t.token = .finish := by
  unfold checkEnd at h
  split at h
  · exact ⟨Except.ok.inj h, nofun⟩
  · next t after =>
    split at h
    · next hfinish =>
      refine ⟨Except.ok.inj h, fun u us hcons => ?_⟩
      cases hcons
      exact hfinish
    · cases h
    · cases h

/-- A text parses to the trees that its tokens are derived from and that nest within the limit. -/
theorem parseText_eq_ok_iff {source : String} {maxDepth : Nat} {x : Expr} :
    (parseText source maxDepth).result = .ok x ↔
      Derives .expression x ∧ x.tokens = body source ∧ x.depth ≤ maxDepth := by
  rw [parseText_result]
  constructor
  · intro h
    cases hresult : (Parsing.run .expression maxDepth Parsing.start (tokens source)).result with
    | error e =>
      rw [hresult] at h
      cases h
    | ok y =>
      rw [hresult] at h
      obtain ⟨rfl, hend⟩ := Parsing.checkEnd_eq_ok h
      obtain ⟨hderives, htokens, -, hdepth⟩ := Parsing.After.start.run_ok hresult
      refine ⟨hderives, ?_, hdepth⟩
      rw [List.nil_append] at htokens
      cases hrest : (Parsing.run .expression maxDepth Parsing.start (tokens source)).rest with
      | nil =>
        obtain ⟨position, hfinish⟩ := tokens_eq_body source
        rw [hrest, List.append_nil, hfinish] at htokens
        have hmem : ⟨.finish, position⟩ ∈ y.tokens := by
          rw [htokens]
          exact List.mem_concat_self
        exact absurd rfl (Expr.token_of_mem hmem).1
      | cons t after =>
        rw [hrest] at htokens
        exact (eq_body_of_finish htokens (hend t after hrest)).1
  · rintro ⟨hderives, htokens, hdepth⟩
    obtain ⟨position, hfinish⟩ := tokens_eq_body source
    rw [hfinish, ← htokens, hderives.run hdepth rfl]
    rfl

/-- The operators of a text that parses are those of its tree. -/
theorem parseText_completed {source : String} {maxDepth : Nat} {x : Expr}
    (h : (parseText source maxDepth).result = .ok x) :
    (parseText source maxDepth).completed = x.operations := by
  obtain ⟨hderives, htokens, hdepth⟩ := parseText_eq_ok_iff.1 h
  obtain ⟨position, hfinish⟩ := tokens_eq_body source
  rw [parseText, hfinish, ← htokens, hderives.run hdepth rfl]

/-- A text that parses comes to what its tree comes to, also if that is an error. -/
theorem evaluateWith_eq_eval {source : String} {maxDepth : Nat} {x : Expr}
    (hderives : Derives .expression x) (htokens : x.tokens = body source)
    (hdepth : x.depth ≤ maxDepth) : evaluateWith source maxDepth = x.eval := by
  have hresult : (parseText source maxDepth).result = .ok x :=
    parseText_eq_ok_iff.2 ⟨hderives, htokens, hdepth⟩
  obtain ⟨as, hperforms⟩ := x.performs_operations
  have hrealises := Session.finish_realises source maxDepth
  cases hvalue : x.eval with
  | error e =>
    rw [hvalue, ← parseText_completed hresult] at hperforms
    exact hrealises.outcome_of_failure hperforms
  | ok value =>
    rw [hvalue, ← parseText_completed hresult] at hperforms
    cases hrealises with
    | failed hfail _ => cases (hperforms.unique hfail).2
    | rejected _ herror _ _ => cases herror.symm.trans hresult
    | accepted _ hok hvalue' houtcome _ =>
      cases hok.symm.trans hresult
      cases hvalue.symm.trans hvalue'
      exact houtcome

/-! ## Texts with a value -/

/-- A text has a value exactly if its tokens are derived from a tree, which is the only one, that
nests within the limit and has the value. -/
theorem evaluateWith_eq_ok_iff (source : String) (maxDepth : Nat) (value : Float) :
    evaluateWith source maxDepth = .ok value ↔
      (∀ t ∈ body source, t.token ≠ .invalid) ∧
        ∃ x, Derives .expression x ∧ x.tokens = body source ∧
          (∀ y, Derives .expression y → y.tokens = body source → y = x) ∧
          x.depth ≤ maxDepth ∧ x.eval = .ok value := by
  have hrealises := Session.finish_realises source maxDepth
  constructor
  · intro h
    cases hrealises with
    | failed _ houtcome => cases houtcome.symm.trans h
    | rejected _ _ houtcome _ => cases houtcome.symm.trans h
    | @accepted x result _ hresult hvalue houtcome _ =>
      cases houtcome.symm.trans h
      obtain ⟨hderives, htokens, hdepth⟩ := parseText_eq_ok_iff.1 hresult
      refine ⟨fun t ht => ?_, x, hderives, htokens, fun y hy hytokens => ?_, hdepth, hvalue⟩
      · rw [← htokens] at ht
        exact (Expr.token_of_mem ht).2
      · exact hy.unique hderives (hytokens.trans htokens.symm)
  · rintro ⟨-, x, hderives, htokens, -, hdepth, hvalue⟩
    have hresult : (parseText source maxDepth).result = .ok x :=
      parseText_eq_ok_iff.2 ⟨hderives, htokens, hdepth⟩
    cases hrealises with
    | failed hperforms _ =>
      rw [parseText_completed hresult] at hperforms
      cases hperforms.failure_eq_none fun y hy => Expr.eval_of_mem_operations hvalue hy
    | rejected _ herror _ _ => cases herror.symm.trans hresult
    | accepted _ hok hvalue' houtcome _ =>
      cases hok.symm.trans hresult
      rw [← hvalue, hvalue']
      exact houtcome

end Reckon
