import Mathlib.Order.Bounds.Defs
import Reckon.Proofs.Parsing.Completeness
import Reckon.Proofs.TwoPhase

/-!
# Where a syntax error is blamed

A text is `Blocked` at the tokens that cannot go on with what stands before them. The first of them
decides about a syntax error, together with what stands before it: an operand may be due there
(`OperandDue`), the text may be complete there (`Sentence`), or else a parenthesis is open. `Blames`
says which error is reported in each of these cases, and `evaluateWith_blames` that evaluating a
text reports it.

What a state of a parse has read is viable, since its frames can be completed and its parentheses
closed (`Parsing.Fits.exists_closed`). That nothing behind a stop is viable follows from the
completeness of the parse, at a limit that the extension does not exceed
(`Parsing.Reads.not_viable`).
-/

namespace Reckon

/-! ## Open parentheses -/

/-- The positions of the parentheses that are open behind a token, given those before it. -/
def openAfter (stack : List Nat) (t : Placed) : List Nat :=
  match t.token with
  | .opening => t.position :: stack
  | .closing => stack.tail
  | _ => stack

/-- The positions of the opening parentheses that have no matching closing one, the innermost
first. -/
def openings (ts : List Placed) : List Nat :=
  ts.foldl openAfter []

/-- A binary operator opens and closes nothing. -/
theorem openAfter_op (stack : List Nat) (op : BinaryOp) (position : Nat) :
    openAfter stack ⟨op.token, position⟩ = stack := by
  cases op <;> rfl

/-- A sign opens and closes nothing. -/
theorem openAfter_sign (stack : List Nat) (op : UnaryOp) (position : Nat) :
    openAfter stack ⟨op.token, position⟩ = stack := by
  cases op <;> rfl

/-- An expression closes all the parentheses that it opens. -/
theorem Expr.foldl_openAfter (x : Expr) (stack : List Nat) :
    x.tokens.foldl openAfter stack = stack := by
  induction x generalizing stack with
  | number => rfl
  | group opening body closing ih =>
    rw [tokens, List.foldl_cons, List.foldl_append, ih]
    rfl
  | unary op position operand ih =>
    rw [tokens, List.foldl_cons, openAfter_sign, ih]
  | binary op left position right ihl ihr =>
    rw [tokens, List.foldl_append, ihl, List.foldl_cons, openAfter_op, ihr]

/-- A sentence closes every parenthesis that it opens. -/
theorem Sentence.openings {ts : List Placed} (h : Sentence ts) : openings ts = [] := by
  obtain ⟨x, -, rfl⟩ := h
  exact x.foldl_openAfter []

/-! ## Blocked texts -/

/-- What has to come is an operand: every sentence goes on with the beginning of one. -/
def OperandDue (ts : List Placed) : Prop :=
  ∀ rest, Sentence (ts ++ rest) → ∃ t after, rest = t :: after ∧
    ((∃ value, t.token = .number value) ∨ t.token = .opening ∨ ∃ op : UnaryOp, t.token = op.token)

/-- The token at the index cannot stand behind the tokens before it; the end can stand only behind
a sentence. -/
def Blocked (ts : List Placed) (j : Nat) : Prop :=
  ∃ t, ts[j]? = some t ∧
    if t.token = .finish then ¬ Sentence (ts.take j) else ¬ Viable (ts.take (j + 1))

/-- The error that is reported where the token `t` cannot stand behind the tokens `before`. -/
structure Blames (before : List Placed) (t : Placed) (e : EvalError) : Prop where
  operand : OperandDue before →
    e = ⟨if t.token = .invalid then .invalidCharacter else .unexpectedToken, t.position⟩
  trailing : Sentence before →
    e = ⟨if t.token = .invalid then .invalidCharacter else .trailingInput, t.position⟩ ∧
      (t.token = .invalid ∨ (∃ value, t.token = .number value) ∨ t.token = .opening ∨
        t.token = .closing)
  parenthesis : ¬ OperandDue before → ¬ Sentence before →
    e.kind = .unmatchedParenthesis ∧ (openings before).head? = some e.position

/-- A complete sentence is in need of no operand. -/
theorem Sentence.not_operandDue {ts : List Placed} (h : Sentence ts) : ¬ OperandDue ts := by
  intro hdue
  obtain ⟨t, after, hnil, -⟩ := hdue [] (by rwa [List.append_nil])
  cases hnil

/-! ## What a state of a parse can be extended to -/

namespace Parsing

/-- Closing the open parentheses makes an expression of the frames and an operand for them. -/
theorem Fits.exists_closed {goal : Level} {frames : List Frame} (h : Fits goal frames) {x : Expr}
    (hx : Derives (awaited goal frames) x) :
    ∃ y rest, Derives goal y ∧ y.tokens = tokensOf frames ++ x.tokens ++ rest ∧
      ∀ t ∈ rest, t.token = .closing := by
  induction h generalizing x with
  | nil => exact ⟨x, [], hx, by rw [tokensOf, List.nil_append, List.append_nil], nofun⟩
  | binary position _ hlevel hleft ih =>
    obtain ⟨y, rest, hy, htokens, hrest⟩ := ih ((Derives.binary position hleft hx).mono hlevel)
    exact ⟨y, rest, hy, by rw [htokens]; simp [tokensOf, Frame.tokens, Expr.tokens], hrest⟩
  | unary op position _ hlevel ih =>
    obtain ⟨y, rest, hy, htokens, hrest⟩ := ih ((Derives.signed op position hx).mono hlevel)
    exact ⟨y, rest, hy, by rw [htokens]; simp [tokensOf, Frame.tokens, Expr.tokens], hrest⟩
  | group position _ ih =>
    obtain ⟨y, rest, hy, htokens, hrest⟩ := ih ((Derives.group position 0 hx).mono (Nat.zero_le _))
    refine ⟨y, ⟨.closing, 0⟩ :: rest, hy, ?_, ?_⟩
    · rw [htokens]
      simp [tokensOf, Frame.tokens, Expr.tokens]
    · intro t ht
      rcases List.mem_cons.1 ht with rfl | ht
      · rfl
      · exact hrest t ht

section
variable {goal : Level} {maxDepth : Nat} {ts rest : List Placed} {t : Placed}
  {done completed : List Expr} {q : Parsing} {x : Expr}

/-- What a parse has read is viable. -/
theorem Reads.viable (h : Reads .expression maxDepth start ts done q) : Viable ts := by
  have hafter := h.after_start
  obtain ⟨frames, operand⟩ := q
  cases operand with
  | none =>
    obtain ⟨y, rest, hy, htokens, -⟩ :=
      hafter.fits.exists_closed ((Derives.number 0 0).mono (Nat.zero_le _))
    refine ⟨(Expr.number 0 0).tokens ++ rest, y, hy, ?_⟩
    rw [htokens, ← hafter.tokens]
    simp
  | some x =>
    obtain ⟨y, rest, hy, htokens, -⟩ :=
      hafter.fits.exists_closed ((hafter.primary x rfl).mono (Nat.zero_le _))
    exact ⟨rest, y, hy, by rw [htokens, ← hafter.tokens]; rfl⟩

/-- A parse that has read the beginning of a sentence takes its next token, at a limit that the
sentence keeps to. -/
theorem Reads.exists_shift (h : Reads goal maxDepth start ts done q) (hx : Derives goal x)
    (htokens : x.tokens = ts ++ t :: rest) :
    ∃ limit completed next, maxDepth ≤ limit ∧
      react goal limit q t = ⟨completed, .shift next⟩ := by
  have hle : maxDepth ≤ max maxDepth x.depth := Nat.le_max_left _ _
  obtain ⟨_, _, _, hreads, -, -⟩ := hx.recognised goal (max maxDepth x.depth) []
    (Nat.le_refl _) (Nat.le_trans (Nat.le_of_eq (Nat.zero_add _)) (Nat.le_max_right _ _))
  rw [htokens] at hreads
  obtain ⟨_, _, _, hbefore, hbehind⟩ := hreads.split
  obtain ⟨rfl, -⟩ := Reads.unique hbefore (h.mono hle)
  cases hbehind with
  | cons hreact _ => exact ⟨_, _, _, hle, hreact⟩

/-- A parse that has read a sentence accepts it before the end of the text. -/
theorem Reads.exists_accept (h : Reads goal maxDepth start x.tokens done q) (hx : Derives goal x)
    (ht : t.token = .finish) :
    ∃ limit completed, maxDepth ≤ limit ∧ react goal limit q t = ⟨completed, .stop (.ok x)⟩ := by
  have hle : maxDepth ≤ max maxDepth x.depth := Nat.le_max_left _ _
  obtain ⟨_, _, _, hreads, -, hreact⟩ := hx.recognised goal (max maxDepth x.depth) []
    (Nat.le_refl _) (Nat.le_trans (Nat.le_of_eq (Nat.zero_add _)) (Nat.le_max_right _ _))
  obtain ⟨rfl, -⟩ := Reads.unique hreads (h.mono hle)
  have hend := hreact t (by rw [ht]; rfl)
  rw [settle_nil (by rw [ht]; rfl)] at hend
  exact ⟨_, _, hle, hend⟩

/-- A stop at a token does not depend on the limit. -/
theorem react_stop_mono {limit : Nat} (hle : maxDepth ≤ limit) {result : Except EvalError Expr}
    (h : react goal maxDepth q t = ⟨completed, .stop result⟩) :
    react goal limit q t = ⟨completed, .stop result⟩ := by
  rw [react_mono hle (by rw [h]; exact nofun), h]

/-- Nothing that begins with a token at which a parse stops goes on to a sentence. -/
theorem Reads.not_viable (h : Reads .expression maxDepth start ts done q)
    {result : Except EvalError Expr}
    (hstop : react .expression maxDepth q t = ⟨completed, .stop result⟩) :
    ¬ Viable (ts ++ [t]) := by
  rintro ⟨rest, x, hx, htokens⟩
  rw [List.append_assoc] at htokens
  obtain ⟨limit, _, _, hle, hshift⟩ := h.exists_shift hx htokens
  rw [react_stop_mono hle hstop] at hshift
  cases hshift

/-- What ends in an error is no sentence. -/
theorem Reads.not_sentence (h : Reads .expression maxDepth start ts done q) {e : EvalError}
    (ht : t.token = .finish)
    (hstop : react .expression maxDepth q t = ⟨completed, .stop (.error e)⟩) :
    ¬ Sentence ts := by
  rintro ⟨x, hx, rfl⟩
  obtain ⟨limit, _, hle, haccept⟩ := h.exists_accept hx ht
  rw [react_stop_mono hle hstop] at haccept
  cases haccept

/-- An operand is due exactly in the states that have none. -/
theorem Reads.operandDue_iff (h : Reads .expression maxDepth start ts done q) :
    OperandDue ts ↔ q.operand = none := by
  obtain ⟨frames, operand⟩ := q
  cases operand with
  | some x =>
    refine ⟨fun hdue => ?_, nofun⟩
    have hafter := h.after_start
    obtain ⟨y, rest, hy, htokens, hrest⟩ :=
      hafter.fits.exists_closed ((hafter.primary x rfl).mono (Nat.zero_le _))
    obtain ⟨t, after, rfl, hbegins⟩ :=
      hdue rest ⟨y, hy, by rw [htokens, ← hafter.tokens]; rfl⟩
    have ht := hrest t (List.mem_cons_self ..)
    rw [ht] at hbegins
    rcases hbegins with ⟨_, hnumber⟩ | hopening | ⟨op, hsign⟩
    · cases hnumber
    · cases hopening
    · cases op <;> cases hsign
  | none =>
    refine ⟨fun _ => rfl, fun _ rest => ?_⟩
    rintro ⟨x, hx, htokens⟩
    cases rest with
    | nil =>
      rw [List.append_nil] at htokens
      subst htokens
      obtain ⟨limit, _, -, haccept⟩ := h.exists_accept (t := ⟨.finish, 0⟩) hx rfl
      injection haccept with _ haccept
      cases expect_eq_stop haccept
    | cons t after =>
      refine ⟨t, after, rfl, ?_⟩
      obtain ⟨limit, _, _, -, hshift⟩ := h.exists_shift hx htokens
      injection hshift with _ hshift
      obtain ⟨move, hexpects, hexpect⟩ := expect_expects .expression t frames
      rw [hexpect] at hshift
      cases hexpects with
      | number ht => exact .inl ⟨_, ht⟩
      | opening ht => exact .inr (.inl ht)
      | sign ht _ => exact .inr (.inr ⟨_, ht⟩)
      | unexpected => cases hshift

end

end Parsing

/-! ## Where an operand is due -/

/-- What is viable can be read. -/
theorem Viable.exists_reads {ts : List Placed} (h : Viable ts) :
    ∃ maxDepth done q, Parsing.Reads .expression maxDepth Parsing.start ts done q := by
  obtain ⟨rest, x, hx, htokens⟩ := h
  obtain ⟨_, _, _, hreads, -, -⟩ := hx.recognised .expression x.depth [] (Nat.le_refl _)
    (Nat.le_of_eq (Nat.zero_add _))
  rw [htokens] at hreads
  obtain ⟨q, done, _, hbefore, -⟩ := hreads.split
  exact ⟨x.depth, done, q, hbefore⟩

/-- A primary ends in a number or in a closing parenthesis. -/
theorem Derives.getLast?_primary {x : Expr} (h : Derives .primary x) :
    ∃ t, x.tokens.getLast? = some t ∧ (t.token = .closing ∨ ∃ value, t.token = .number value) := by
  cases h with
  | number value position => exact ⟨_, rfl, .inr ⟨value, rfl⟩⟩
  | @group opening closing body _ =>
    refine ⟨⟨.closing, closing⟩, ?_, .inl rfl⟩
    rw [Expr.tokens, ← List.cons_append, List.getLast?_concat]

/-- What a frame has taken ends in an operator, a sign or an opening parenthesis. -/
theorem Frame.getLast?_tokens (f : Frame) :
    ∃ t, f.tokens.getLast? = some t ∧ t.token ≠ .closing ∧ ∀ value, t.token ≠ .number value := by
  cases f with
  | binary op left position =>
    refine ⟨⟨op.token, position⟩, List.getLast?_concat, ?_⟩
    cases op <;> exact ⟨nofun, nofun⟩
  | unary op position =>
    refine ⟨⟨op.token, position⟩, rfl, ?_⟩
    cases op <;> exact ⟨nofun, nofun⟩
  | group position => exact ⟨_, rfl, nofun, nofun⟩

/-- An operand is due at the beginning and behind operators, signs and opening parentheses. -/
theorem Viable.operandDue_iff {ts : List Placed} (h : Viable ts) :
    OperandDue ts ↔
      ∀ t ∈ ts.getLast?, t.token ≠ .closing ∧ ∀ value, t.token ≠ .number value := by
  obtain ⟨maxDepth, done, q, hreads⟩ := h.exists_reads
  have hafter := hreads.after_start
  rw [hreads.operandDue_iff, ← hafter.tokens]
  obtain ⟨frames, operand⟩ := q
  cases operand with
  | some x =>
    obtain ⟨t, hlast, ht⟩ := (hafter.primary x rfl).getLast?_primary
    have hend : (Parsing.tokensOf frames ++ x.tokens).getLast? = some t := by
      rw [List.getLast?_append, hlast, Option.some_or]
    refine ⟨nofun, fun hnot => ?_⟩
    obtain ⟨hclosing, hnumber⟩ := hnot t hend
    rcases ht with ht | ⟨value, ht⟩
    · exact absurd ht hclosing
    · exact absurd ht (hnumber value)
  | none =>
    refine ⟨fun _ t ht => ?_, fun _ => rfl⟩
    cases frames with
    | nil => cases ht
    | cons f below =>
      obtain ⟨u, hlast, hu⟩ := f.getLast?_tokens
      have hend : (Parsing.tokensOf (f :: below) ++ []).getLast? = some u := by
        rw [List.append_nil, Parsing.tokensOf, List.getLast?_append, hlast, Option.some_or]
      cases hend.symm.trans ht
      exact hu

/-! ## The error of a text -/

/-- The opening parentheses of what the frames have taken. -/
theorem Parsing.openings_group (below : List Frame) (position : Nat) (x : Expr) :
    openings (tokensOf (.group position :: below) ++ x.tokens) =
      position :: openings (tokensOf below) := by
  rw [openings, List.foldl_append, x.foldl_openAfter, tokensOf, List.foldl_append]
  rfl

namespace Parsing

section
variable {maxDepth : Nat} {before : List Placed} {t : Placed} {done completed : List Expr}
  {q : Parsing} {x : Expr} {e : EvalError}

/-- A parse that stops with an error blames it as it has to. -/
theorem Reads.blames (h : Reads .expression maxDepth start before done q)
    (hstop : react .expression maxDepth q t = ⟨completed, .stop (.error e)⟩) :
    Blames before t e := by
  obtain ⟨frames, operand⟩ := q
  cases operand with
  | none =>
    have hdue : OperandDue before := h.operandDue_iff.2 rfl
    refine ⟨fun _ => ?_, fun hsentence => absurd hdue hsentence.not_operandDue,
      fun hnot => absurd hdue hnot⟩
    injection hstop with _ hstop
    cases expect_eq_stop hstop
    rfl
  | some x =>
    have hnot : ¬ OperandDue before := fun hdue => nomatch h.operandDue_iff.1 hdue
    rcases settle_eq_stop hstop with ⟨y, hresult, -⟩ | ⟨below, opening, y, hresult, hpops⟩
    · cases hresult
    · cases hresult
      have hopen : openings before = opening :: openings (tokensOf below) := by
        rw [← ((h.after_start.ready t).pops hpops).tokens, openings_group]
      refine ⟨fun hdue => absurd hdue hnot, fun hsentence => ?_, fun _ _ => ⟨rfl, ?_⟩⟩
      · rw [hsentence.openings] at hopen
        cases hopen
      · rw [hopen]
        rfl

/-- What can stand behind a whole expression without going on with it. -/
theorem trailing_cases {token : Token} (h : Evaluation.continues? .expression token = none)
    (hfinish : token ≠ .finish) :
    token = .invalid ∨ (∃ value, token = .number value) ∨ token = .opening ∨ token = .closing := by
  cases token with
  | plus | minus | star | slash | power => cases h
  | finish => exact absurd rfl hfinish
  | number value => exact .inr (.inl ⟨value, rfl⟩)
  | opening => exact .inr (.inr (.inl rfl))
  | closing => exact .inr (.inr (.inr rfl))
  | invalid => exact .inl rfl

/-- What follows a whole expression is blamed unless it is the end of the text. -/
theorem Reads.blames_trailing (h : Reads .expression maxDepth start before done q)
    (hstop : react .expression maxDepth q t = ⟨completed, .stop (.ok x)⟩) (ht : t.token ≠ .finish) :
    Blames before t
      ⟨if t.token = .invalid then .invalidCharacter else .trailingInput, t.position⟩ := by
  obtain ⟨frames, operand⟩ := q
  cases operand with
  | none =>
    injection hstop with _ hstop
    cases expect_eq_stop hstop
  | some y =>
    obtain ⟨hderives, htokens, -, -⟩ := (h.after_start.ready t).accept hstop
    have hnone : Evaluation.continues? .expression t.token = none := by
      rcases settle_eq_stop hstop with ⟨_, -, -, hnone⟩ | ⟨_, _, _, hresult, -⟩
      · exact hnone
      · cases hresult
    have hsentence : Sentence before := ⟨x, hderives, htokens⟩
    refine ⟨fun hdue => absurd hdue hsentence.not_operandDue, fun _ => ⟨rfl, ?_⟩,
      fun _ hnot => absurd hsentence hnot⟩
    exact trailing_cases hnone ht

end

end Parsing

/-- A text that fails to parse for its syntax is blocked behind something viable, and is blamed for
it as it has to be. -/
theorem parseText_blames {source : String} {maxDepth : Nat} {e : EvalError}
    (h : (parseText source maxDepth).result = .error e) (hkind : e.kind.isSyntax) :
    ∃ before t after, tokens source = before ++ t :: after ∧ Viable before ∧
      (if t.token = .finish then ¬ Sentence before else ¬ Viable (before ++ [t])) ∧
      Blames before t e := by
  obtain ⟨before, t, after, done, q, htokens, hreads, hend⟩ :=
    Parsing.run_split .expression maxDepth (exists_finish_mem_tokens source) Parsing.start
  refine ⟨before, t, after, htokens, hreads.viable, ?_⟩
  rw [parseText_result] at h
  rcases hend with ⟨completed, error, hreact, hrun⟩ | ⟨completed, result, hreact, hrun⟩
  · rw [hrun] at h
    cases h
    rw [Parsing.react_eq_refuse hreact] at hkind
    cases hkind
  · rw [hrun] at h
    cases result with
    | error error =>
      cases h
      refine ⟨?_, hreads.blames hreact⟩
      split
      · next ht => exact hreads.not_sentence ht hreact
      · exact hreads.not_viable hreact
    | ok x =>
      have hcheck : Parsing.checkEnd (t :: after) x = .error e := h
      obtain ⟨_, _, hcons, ht, rfl⟩ := Parsing.checkEnd_error hcheck
      cases hcons
      rw [if_neg ht]
      exact ⟨hreads.not_viable hreact, hreads.blames_trailing hreact ht⟩

/-- A syntax error of an evaluation is one of the parse. -/
theorem parseText_of_syntax_error {source : String} {maxDepth : Nat} {e : EvalError}
    (h : evaluateWith source maxDepth = .error e) (hkind : e.kind.isSyntax) :
    (parseText source maxDepth).result = .error e := by
  refine parseText_of_error h (fun hdiv => ?_) fun hpow => ?_
  · rw [hdiv] at hkind
    cases hkind
  · rw [hpow] at hkind
    cases hkind

/-- A token behind something viable at which a text is blocked is the first one. -/
theorem isLeast_blocked {source : String} {before after : List Placed} {t : Placed}
    (htokens : tokens source = before ++ t :: after) (hviable : Viable before)
    (hblocked : if t.token = .finish then ¬ Sentence before else ¬ Viable (before ++ [t])) :
    IsLeast {j | Blocked (tokens source) j} before.length := by
  constructor
  · refine ⟨t, by rw [htokens]; simp, ?_⟩
    rw [htokens, List.take_left, List.take_length_add_append]
    exact hblocked
  · rintro j ⟨u, hu, hstuck⟩
    rw [htokens] at hu hstuck
    by_contra hlt
    have hj : j < before.length := Nat.lt_of_not_le hlt
    rw [List.getElem?_append_left hj] at hu
    obtain ⟨_, hget⟩ := List.getElem?_eq_some_iff.1 hu
    have hbefore : before.take j ++ u :: before.drop (j + 1) = before := by
      rw [← hget, ← List.drop_eq_getElem_cons hj, List.take_append_drop]
    rw [List.take_append_of_le_length hj] at hstuck
    split at hstuck
    · next hfinish =>
      rw [← hbefore, List.append_assoc] at htokens
      have hnil := (eq_body_of_finish htokens.symm hfinish).2
      exact absurd hnil (by simp)
    · rw [← List.take_append_drop (j + 1) before] at hviable
      exact hstuck hviable.left

/-- A syntax error is blamed on the first token at which the text is blocked, or on the innermost
parenthesis that is open there; and a text that is a sentence has no syntax error. -/
theorem evaluateWith_blames (source : String) (maxDepth : Nat) :
    (∀ e, evaluateWith source maxDepth = .error e → e.kind.isSyntax →
      ∃ j t, IsLeast {i | Blocked (tokens source) i} j ∧ (tokens source)[j]? = some t ∧
        Blames ((tokens source).take j) t e) ∧
    (Sentence (body source) →
      ∀ e, evaluateWith source maxDepth = .error e → ¬ e.kind.isSyntax) := by
  constructor
  · intro e herror hkind
    obtain ⟨before, t, after, htokens, hviable, hblocked, hblames⟩ :=
      parseText_blames (parseText_of_syntax_error herror hkind) hkind
    refine ⟨before.length, t, isLeast_blocked htokens hviable hblocked, by rw [htokens]; simp, ?_⟩
    rwa [htokens, List.take_left]
  · intro hsentence e herror hkind
    obtain ⟨before, t, after, htokens, -, hblocked, -⟩ :=
      parseText_blames (parseText_of_syntax_error herror hkind) hkind
    split at hblocked
    · next ht => exact hblocked ((eq_body_of_finish htokens.symm ht).1 ▸ hsentence)
    · next ht =>
      obtain ⟨rest, hbody⟩ := exists_body_eq_of_ne_finish htokens.symm ht
      rw [hbody, List.append_cons] at hsentence
      exact hblocked hsentence.viable.left

/-- An invalid character is blamed itself, but inside a group the parenthesis is. -/
example : evaluateWith "1 # 2" 200 = .error ⟨.invalidCharacter, 3⟩ ∧
    evaluateWith "((1) # 2" 200 = .error ⟨.unmatchedParenthesis, 1⟩ := by decide +kernel

end Reckon
