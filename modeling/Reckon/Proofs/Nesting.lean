import Mathlib.Order.Nat
import Reckon.Proofs.Blame
import Reckon.Proofs.Tiling

/-!
# The nesting limit

A limit below what a text needs is blamed on the first token that opens a level too many, and any
other limit is as good as none. `Expr.leveled` writes the tokens of an expression, each with the
level that it opens, if it opens one, and `OpensFirst` says that a token is the first to open a
level, in whatever expression the tokens up to it begin.

`Parsing.leveled` reads the same off a state of a parse. A turn that takes a token adds that token
with its level (`Parsing.react_leveled`), so what a run has read is leveled as in the expression
that it ends in (`Parsing.accept_leveled`). Two runs under different limits differ only where the
smaller one is met (`Parsing.run_mono`), which gives the threshold of `evaluateWith_threshold`.
-/

namespace Reckon

/-! ## Levels of tokens -/

/-- The tokens that can open a nesting level. -/
def Token.mayNest : Token → Bool
  | .opening | .power | .plus | .minus => true
  | _ => false

/-- The tokens of an expression around which `outer` levels are open, each with the level that it
opens: a parenthesis, a sign and the operator of an exponent open one. -/
def Expr.leveled (outer : Nat) : Expr → List (Placed × Option Nat)
  | number value position => [(⟨.number value, position⟩, none)]
  | group opening body closing =>
    (⟨.opening, opening⟩, some (outer + 1)) ::
      (body.leveled (outer + 1) ++ [(⟨.closing, closing⟩, none)])
  | unary op position operand =>
    (⟨op.token, position⟩, some (outer + 1)) :: operand.leveled (outer + 1)
  | binary .pow left position right =>
    left.leveled outer ++ (⟨.power, position⟩, some (outer + 1)) :: right.leveled (outer + 1)
  | binary op left position right =>
    left.leveled outer ++ (⟨op.token, position⟩, none) :: right.leveled outer

/-- Behind the tokens `before`, the token `t` is the first to open the level: they begin an
expression, and in each that they begin `t` opens the level and none of `before` opens it or one
above it. -/
structure OpensFirst (before : List Placed) (t : Placed) (level : Nat) : Prop where
  viable : Viable (before ++ [t])
  opens : ∀ x rest, Derives .expression x → x.tokens = before ++ t :: rest →
    (x.leveled 0)[before.length]? = some (t, some level)
  first : ∀ x rest, Derives .expression x → x.tokens = before ++ t :: rest →
    ∀ u l, (u, some l) ∈ (x.leveled 0).take before.length → l < level

/-- The tokens that a frame has taken, with their levels. -/
def Frame.leveled (outer : Nat) : Frame → List (Placed × Option Nat)
  | .binary .pow left position => left.leveled outer ++ [(⟨.power, position⟩, some (outer + 1))]
  | .binary op left position => left.leveled outer ++ [(⟨op.token, position⟩, none)]
  | .unary op position => [(⟨op.token, position⟩, some (outer + 1))]
  | .group position => [(⟨.opening, position⟩, some (outer + 1))]

/-- An operator is leveled as its frame and its last operand. -/
theorem Frame.leveled_complete {f : Frame} {x y : Expr} (h : f.complete? x = some y)
    (outer : Nat) : y.leveled outer = f.leveled outer ++ x.leveled (outer + f.levels) := by
  cases f with
  | group => cases h
  | unary op position =>
    cases h
    rfl
  | binary op left position =>
    cases h
    cases op <;> simp [Expr.leveled, Frame.leveled, Frame.levels, BinaryOp.token]

/-- A frame opens no more levels than it has tokens that may. -/
theorem Frame.levels_le_countP (f : Frame) :
    f.levels ≤ f.tokens.countP (fun t => t.token.mayNest) := by
  cases f with
  | group => exact Nat.le_refl 1
  | unary op => cases op <;> exact Nat.le_refl 1
  | binary op left position =>
    rw [tokens, List.countP_append]
    cases op <;> simp [levels, BinaryOp.token, Token.mayNest]

namespace Parsing

/-- The tokens that the frames have taken, with their levels. -/
def leveledOf : List Frame → List (Placed × Option Nat)
  | [] => []
  | f :: below => leveledOf below ++ f.leveled (nesting below)

/-- The tokens that a parse has taken, with their levels. -/
def leveled (p : Parsing) : List (Placed × Option Nat) :=
  leveledOf p.frames ++ p.operand.elim [] (Expr.leveled (nesting p.frames))

section
variable {goal : Level} {maxDepth limit : Nat} {frames rest : List Frame} {f : Frame}
  {p q : Parsing} {t : Placed} {ts : List Placed} {x y : Expr} {completed : List Expr}

/-! ## Turns -/

/-- Completing operators leaves the tokens with the levels that they have. -/
theorem Pops.leveled (h : Pops goal t frames x completed rest y) :
    leveledOf rest ++ y.leveled (nesting rest) =
      leveledOf frames ++ x.leveled (nesting frames) := by
  induction h with
  | nil => rfl
  | cons hy _ _ ih =>
    rw [ih, Frame.leveled_complete hy, leveledOf, nesting, Nat.add_comm, List.append_assoc]

/-- Completing operators opens no levels. -/
theorem Pops.nesting_le (h : Pops goal t frames x completed rest y) :
    nesting rest ≤ nesting frames := by
  induction h with
  | nil => exact Nat.le_refl _
  | cons _ _ _ ih => exact Nat.le_trans ih (Nat.le_add_left _ _)

/-- What a token does to the levels, by nesting limit: it is taken and opens no level, it opens a
level if that is within the limit, or it is not taken. -/
inductive Grades (p : Parsing) (t : Placed) : (Nat → Move) → Prop
  | takes {q : Parsing} : leveled q = leveled p ++ [(t, none)] → Grades p t fun _ => .shift q
  | opens {q : Parsing} {level : Nat} : leveled q = leveled p ++ [(t, some level)] →
      t.token.mayNest → level ≤ nesting p.frames + 1 →
      Grades p t fun maxDepth =>
        if level ≤ maxDepth then .shift q else .refuse ⟨.nestingTooDeep, t.position⟩
  | stops {result : Except EvalError Expr} : Grades p t fun _ => .stop result

/-- A frame that is opened takes its token. -/
theorem grades_push (hposition : f.position = t.position)
    (hnest : nesting frames ≤ nesting p.frames) (hmay : f.levels = 1 → t.token.mayNest)
    (hf : leveledOf (f :: frames) =
      leveled p ++ [(t, if f.levels = 1 then some (nesting frames + 1) else none)]) :
    Grades p t fun maxDepth => push maxDepth frames f := by
  have hleveled : leveled ⟨f :: frames, none⟩ = leveledOf (f :: frames) := List.append_nil _
  rw [← hleveled] at hf
  by_cases hlevels : f.levels = 1
  · rw [if_pos hlevels] at hf
    have hpush : (fun maxDepth => push maxDepth frames f) = fun maxDepth =>
        if nesting frames + 1 ≤ maxDepth then .shift ⟨f :: frames, none⟩
        else .refuse ⟨.nestingTooDeep, t.position⟩ := by
      funext maxDepth
      simp only [push, hlevels, true_and, hposition]
      split <;> split <;> first | rfl | omega
    rw [hpush]
    exact .opens hf (hmay hlevels) (Nat.succ_le_succ hnest)
  · rw [if_neg hlevels] at hf
    have hpush : (fun maxDepth => push maxDepth frames f) = fun _ => .shift ⟨f :: frames, none⟩ :=
      funext fun _ => if_neg fun h => hlevels h.1
    rw [hpush]
    exact .takes hf

/-- Where an operand has to come. -/
theorem Expects.grades {move : Nat → Move} (h : Expects goal t frames move) :
    Grades ⟨frames, none⟩ t move := by
  have hnone : leveled ⟨frames, none⟩ = leveledOf frames := List.append_nil _
  cases h with
  | number ht =>
    refine .takes ?_
    rw [hnone, leveled, Option.elim, Expr.leveled, ← ht]
  | opening ht =>
    refine grades_push rfl (Nat.le_refl _) (fun _ => by rw [ht]; rfl) ?_
    rw [hnone, leveledOf, Frame.leveled, ← ht]
    rfl
  | @sign op ht _ =>
    refine grades_push rfl (Nat.le_refl _) (fun _ => by rw [ht]; cases op <;> rfl) ?_
    rw [hnone, leveledOf, Frame.leveled, ← ht]
    rfl
  | unexpected => exact .stops

/-- Where an operand is complete. -/
theorem Settles.grades {move : Nat → Move} (h : Settles goal t frames x completed move) :
    Grades ⟨frames, some x⟩ t move := by
  have hsome : leveled ⟨frames, some x⟩ = leveledOf frames ++ x.leveled (nesting frames) := rfl
  cases h with
  | @continues rest y op hpops hop =>
    have ht : t.token = op.token := (continues?_eq_some hop).1
    refine grades_push rfl hpops.nesting_le (fun hlevels => ?_) ?_
    · rw [ht]
      cases op <;> first | rfl | cases hlevels
    · obtain ⟨token, position⟩ := t
      cases ht
      rw [hsome, ← hpops.leveled, leveledOf]
      cases op <;> simp [Frame.leveled, Frame.levels, BinaryOp.token]
  | @closes below opening y hpops ht =>
    refine .takes ?_
    have hpopped := hpops.leveled
    rw [leveledOf, nesting, Frame.leveled, Frame.levels, Nat.add_comm 1] at hpopped
    rw [hsome, ← hpopped, leveled, Option.elim, Expr.leveled, ← ht]
    simp
  | whole | unclosed => exact .stops

/-- Every turn is one of these, and which one does not depend on the limit. -/
theorem react_grades (goal : Level) (p : Parsing) (t : Placed) :
    ∃ completed move, Grades p t move ∧
      ∀ maxDepth, react goal maxDepth p t = ⟨completed, move maxDepth⟩ := by
  obtain ⟨frames, operand⟩ := p
  cases operand with
  | none =>
    obtain ⟨move, hexpects, hexpect⟩ := expect_expects goal t frames
    exact ⟨[], move, hexpects.grades, fun maxDepth => congrArg (Turn.mk []) (hexpect maxDepth)⟩
  | some x =>
    obtain ⟨completed, move, hsettles, hsettle⟩ := settle_settles goal t frames x
    exact ⟨completed, move, hsettles.grades, hsettle⟩

/-- A token that is taken keeps its level, which is within the limit. -/
theorem react_leveled (h : react goal maxDepth p t = ⟨completed, .shift q⟩) :
    ∃ level, leveled q = leveled p ++ [(t, level)] ∧ ∀ l ∈ level, l ≤ maxDepth := by
  obtain ⟨_, move, hgrades, hreact⟩ := react_grades goal p t
  rw [hreact] at h
  injection h with _ hmove
  cases hgrades with
  | takes hq =>
    cases hmove
    exact ⟨none, hq, nofun⟩
  | @opens _ level hq =>
    dsimp only at hmove
    split at hmove
    · next hle =>
      cases hmove
      refine ⟨some level, hq, fun l hl => ?_⟩
      cases hl
      exact hle
    · cases hmove
  | stops => cases hmove

/-- A token that is refused opens a level beyond the limit, and is taken under any limit that admits
the level. -/
theorem react_refused {e : EvalError} (h : react goal maxDepth p t = ⟨completed, .refuse e⟩) :
    e = ⟨.nestingTooDeep, t.position⟩ ∧ t.token.mayNest ∧
      ∃ q level, maxDepth < level ∧ level ≤ nesting p.frames + 1 ∧
        leveled q = leveled p ++ [(t, some level)] ∧
        ∀ limit, level ≤ limit → react goal limit p t = ⟨completed, .shift q⟩ := by
  obtain ⟨_, move, hgrades, hreact⟩ := react_grades goal p t
  have hmove := (hreact maxDepth).symm.trans h
  injection hmove with hcompleted hmove
  subst hcompleted
  cases hgrades with
  | takes | stops => cases hmove
  | @opens q level hq hmay hnest =>
    dsimp only at hmove
    split at hmove
    · cases hmove
    · next hlt =>
      cases hmove
      refine ⟨rfl, hmay, q, level, Nat.lt_of_not_le hlt, hnest, hq, fun limit hle => ?_⟩
      rw [hreact]
      exact congrArg (Turn.mk _) (if_pos hle)

/-! ## Runs -/

/-- What a run reads is leveled within the limit. -/
theorem Reads.leveled (h : Reads goal maxDepth p ts completed q) :
    ∃ levels, leveled q = leveled p ++ levels ∧ levels.map Prod.fst = ts ∧
      ∀ u l, (u, some l) ∈ levels → l ≤ maxDepth := by
  induction h with
  | nil => exact ⟨[], (List.append_nil _).symm, rfl, nofun⟩
  | @cons p q r t ts completed later hreact _ ih =>
    obtain ⟨level, hq, hlevel⟩ := react_leveled hreact
    obtain ⟨levels, hr, hfst, hlevels⟩ := ih
    refine ⟨(t, level) :: levels, ?_, ?_, fun u l hmem => ?_⟩
    · rw [hr, hq, List.append_assoc, List.singleton_append]
    · rw [List.map_cons, hfst]
    · rcases List.mem_cons.1 hmem with heq | hmem
      · cases heq
        exact hlevel l rfl
      · exact hlevels u l hmem

/-- A tree that is accepted is leveled as it was read. -/
theorem accept_leveled (h : react goal maxDepth q t = ⟨completed, .stop (.ok x)⟩) :
    x.leveled 0 = leveled q := by
  obtain ⟨frames, operand⟩ := q
  cases operand with
  | none =>
    injection h with _ hstop
    cases expect_eq_stop hstop
  | some y =>
    rcases settle_eq_stop h with ⟨z, hz, hpops, -⟩ | ⟨_, _, _, hresult, -⟩
    · cases hz
      exact hpops.leveled
    · cases hresult

/-- No more levels are open than tokens were read that can open one. -/
theorem nesting_le_countP (frames : List Frame) :
    nesting frames ≤ (tokensOf frames).countP (fun t => t.token.mayNest) := by
  induction frames with
  | nil => exact Nat.zero_le _
  | cons f below ih =>
    have hf := f.levels_le_countP
    rw [nesting, tokensOf, List.countP_append]
    omega

/-- Two limits make a difference only where the smaller one is met. -/
theorem run_mono (hle : maxDepth ≤ limit) (p : Parsing) (ts : List Placed) :
    run goal limit p ts = run goal maxDepth p ts ∨
      (∃ e, (run goal maxDepth p ts).result = .error e ∧ e.kind = .nestingTooDeep) ∧
        ∃ later, (run goal limit p ts).completed = (run goal maxDepth p ts).completed ++ later := by
  induction ts generalizing p with
  | nil => exact .inl rfl
  | cons t ts ih =>
    rcases hreact : react goal maxDepth p t with ⟨completed, move⟩
    have hsame (htaken : ∀ e, move ≠ .refuse e) : react goal limit p t = ⟨completed, move⟩ := by
      rw [react_mono hle (by rw [hreact]; exact htaken), hreact]
    cases move with
    | shift q =>
      rw [run, run, hreact, hsame (by simp)]
      rcases ih q with heq | ⟨herror, later, hlater⟩
      · exact .inl (by simp only [heq])
      · exact .inr ⟨herror, later, by simp only [hlater, List.append_assoc]⟩
    | stop result =>
      rw [run, run, hreact, hsame (by simp)]
      exact .inl rfl
    | refuse e =>
      obtain ⟨done, moves, -, hmoves⟩ := react_grades goal p t
      have hdone : done = completed := by
        rw [hmoves] at hreact
        injection hreact
      rw [run, run, hreact, hmoves, hdone]
      refine .inr ⟨⟨e, rfl, react_eq_refuse hreact⟩, ?_⟩
      cases moves limit with
      | shift q => exact ⟨_, rfl⟩
      | refuse | stop => exact ⟨[], (List.append_nil _).symm⟩

end

end Parsing

/-! ## Texts -/

/-- Under the limit the parse of the text comes to the token `t` behind `before` and refuses it. -/
def RefusedAt (source : String) (maxDepth : Nat) (before : List Placed) (t : Placed) : Prop :=
  ∃ after done q completed, tokens source = before ++ t :: after ∧
    Parsing.Reads .expression maxDepth Parsing.start before done q ∧
    Parsing.react .expression maxDepth q t = ⟨completed, .refuse ⟨.nestingTooDeep, t.position⟩⟩

open Parsing

section
variable {source : String} {maxDepth limit position : Nat} {before : List Placed} {t : Placed}

/-- A text that nests too deeply is refused at a token, which is blamed. -/
theorem refusedAt_of_evaluateWith
    (h : evaluateWith source maxDepth = .error ⟨.nestingTooDeep, position⟩) :
    ∃ before t, t.position = position ∧ RefusedAt source maxDepth before t := by
  have hparse := parseText_of_error h nofun nofun
  rw [parseText_result] at hparse
  obtain ⟨before, t, after, done, q, htokens, hreads, hend⟩ :=
    run_split .expression maxDepth (exists_finish_mem_tokens source) start
  rcases hend with ⟨completed, error, hreact, hrun⟩ | ⟨completed, result, hreact, hrun⟩
  · rw [hrun] at hparse
    cases hparse
    obtain ⟨herror, -⟩ := react_refused hreact
    cases herror
    exact ⟨before, t, rfl, after, done, q, completed, htokens, hreads, hreact⟩
  · rw [hrun] at hparse
    cases result with
    | error e =>
      cases hparse
      cases react_eq_stop hreact
    | ok x =>
      have hcheck : checkEnd (t :: after) x = .error ⟨.nestingTooDeep, position⟩ := hparse
      obtain ⟨u, -, -, -, herror⟩ := checkEnd_error hcheck
      injection herror with hkind
      split at hkind <;> cases hkind

/-- The token that is refused opens the level behind the limit, and any larger limit admits it. -/
theorem RefusedAt.opens (h : RefusedAt source maxDepth before t) :
    t.token.mayNest ∧ ∃ done q r,
      Reads .expression maxDepth start before done q ∧
      leveled r = leveled q ++ [(t, some (maxDepth + 1))] ∧
      nesting q.frames = maxDepth ∧
      ∀ limit, maxDepth < limit → ∃ completed,
        react .expression limit q t = ⟨completed, .shift r⟩ := by
  obtain ⟨after, done, q, completed, -, hreads, hreact⟩ := h
  obtain ⟨-, hmay, r, level, hdeep, hnest, hr, hadmits⟩ := react_refused hreact
  have hopen : nesting q.frames ≤ maxDepth := by
    have hdepth := hreads.after_start.depth
    rw [depthOf_eq_max] at hdepth
    omega
  obtain rfl : level = maxDepth + 1 := by omega
  exact ⟨hmay, done, q, r, hreads, hr, by omega, fun limit hlimit => ⟨_, hadmits limit hlimit⟩⟩

/-- A larger limit is met behind the token at which the smaller one is met. -/
theorem RefusedAt.length_lt {before' : List Placed} {t' : Placed}
    (h : RefusedAt source maxDepth before t) (h' : RefusedAt source limit before' t')
    (hlt : maxDepth < limit) : before.length < before'.length := by
  obtain ⟨-, done, q, r, hreads, -, -, hadmits⟩ := h.opens
  obtain ⟨after, -, -, -, htokens, -⟩ := h
  obtain ⟨after', done', q', completed', htokens', hreads', hreact'⟩ := h'
  obtain ⟨completed, hshift⟩ := hadmits limit hlt
  have hread : Reads .expression limit start (before ++ [t]) (done ++ (completed ++ [])) r :=
    (hreads.mono (Nat.le_of_lt hlt)).append (.cons hshift .nil)
  -- otherwise the run that goes on behind `t` has taken the token that is refused
  by_contra hle
  have hpre : before' ++ [t'] <+: before ++ [t] := by
    have hbefore : before' ++ [t'] <+: tokens source := ⟨after', by rw [htokens']; simp⟩
    refine List.prefix_of_prefix_length_le hbefore ⟨after, ?_⟩ ?_
    · rw [htokens, List.append_assoc, List.singleton_append]
    · simpa using Nat.le_of_not_lt hle
  obtain ⟨rest, hrest⟩ := hpre
  rw [← hrest] at hread
  obtain ⟨_, _, _, hsplit, -⟩ := hread.split
  obtain ⟨_, _, _, hq, hbehind⟩ := hsplit.split
  obtain ⟨rfl, -⟩ := hq.unique hreads'
  cases hbehind with
  | cons hshift' _ =>
    rw [hreact'] at hshift'
    cases hshift'

/-- The token that is refused is the first to open the level behind the limit. -/
theorem RefusedAt.opensFirst (h : RefusedAt source maxDepth before t) :
    OpensFirst before t (maxDepth + 1) := by
  obtain ⟨-, done, q, r, hreads, hr, -, hadmits⟩ := h.opens
  obtain ⟨levels, hlevels, hfst, hbound⟩ := hreads.leveled
  have hlevels : leveled q = levels := hlevels
  have hlength : levels.length = before.length := by rw [← hfst, List.length_map]
  have hexpr (x : Expr) (rest : List Placed) (hx : Derives .expression x)
      (htokens : x.tokens = before ++ t :: rest) :
      ∃ later, x.leveled 0 = levels ++ (t, some (maxDepth + 1)) :: later := by
    have hlimit : maxDepth < max x.depth (maxDepth + 1) := Nat.le_max_right _ _
    obtain ⟨_, _, s, hread, -, -⟩ := hx.recognised .expression (max x.depth (maxDepth + 1)) []
      (Nat.le_refl _) (by rw [nesting]; omega)
    obtain ⟨_, _, hfinish, haccept⟩ := hread.exists_accept (t := ⟨.finish, 0⟩) hx rfl
    rw [htokens] at hread
    obtain ⟨_, _, _, hq, hbehind⟩ := hread.split
    obtain ⟨rfl, -⟩ := hq.unique (hreads.mono (Nat.le_of_lt hlimit))
    obtain ⟨completed, hshift⟩ := hadmits _ hlimit
    cases hbehind with
    | cons hshift' hlater =>
      cases hshift'.symm.trans hshift
      obtain ⟨later, hlater, -, -⟩ := hlater.leveled
      exact ⟨later, by rw [accept_leveled haccept, hlater, hr, hlevels]; simp⟩
  refine ⟨?_, fun x rest hx htokens => ?_, fun x rest hx htokens u l hmem => ?_⟩
  · obtain ⟨completed, hshift⟩ := hadmits (maxDepth + 1) (Nat.lt_succ_self _)
    exact ((hreads.mono (Nat.le_succ _)).append (.cons hshift .nil)).viable
  · obtain ⟨later, hx⟩ := hexpr x rest hx htokens
    rw [hx, ← hlength]
    simp
  · obtain ⟨later, hx⟩ := hexpr x rest hx htokens
    rw [hx, ← hlength, List.take_left] at hmem
    exact Nat.lt_succ_of_le (hbound u l hmem)

/-- Where a limit is met, at least as many tokens can open a level as it has levels, and one
more. -/
theorem RefusedAt.lt_countP (h : RefusedAt source maxDepth before t) :
    maxDepth < (tokens source).countP (fun t => t.token.mayNest) := by
  obtain ⟨hmay, done, q, r, hreads, -, hnesting, -⟩ := h.opens
  obtain ⟨after, -, -, -, htokens, -⟩ := h
  have hframes := nesting_le_countP q.frames
  have hbefore : (tokensOf q.frames).countP (fun t => t.token.mayNest) ≤
      before.countP (fun t => t.token.mayNest) := by
    rw [← hreads.after_start.tokens, List.countP_append]
    exact Nat.le_add_right _ _
  rw [htokens, List.countP_append, List.countP_cons, if_pos hmay]
  omega

/-- A limit that is not met is as good as any larger one. -/
theorem evaluateWith_mono (hle : maxDepth ≤ limit)
    (h : ∀ position, evaluateWith source maxDepth ≠ .error ⟨.nestingTooDeep, position⟩) :
    evaluateWith source limit = evaluateWith source maxDepth := by
  have hsmall := Session.finish_realises source maxDepth
  have hlarge := Session.finish_realises source limit
  rcases run_mono hle start (tokens source) with heq | ⟨⟨e, herror, hkind⟩, later, hlater⟩
  · rw [parseText, heq] at hlarge
    exact hlarge.outcome_unique hsmall
  · have hresult : (parseText source maxDepth).result = .error e := by
      rw [parseText_result, herror]
      rfl
    cases hsmall with
    | failed hperforms houtcome =>
      have hfail := hperforms.append_of_failure later
      rw [parseText, ← hlater] at hfail
      exact (hlarge.outcome_of_failure hfail).trans houtcome.symm
    | accepted _ hok => cases hok.symm.trans hresult
    | rejected _ herror' houtcome =>
      cases herror'.symm.trans hresult
      obtain ⟨kind, position⟩ := e
      cases hkind
      exact absurd houtcome (h position)

end

/-- Every text has a threshold, at most the number of its tokens that can open a level. From the
threshold on the limit makes no difference. A limit below it is met at the first token that opens
the level behind the limit, which is blamed; the larger the limit, the later that token. -/
theorem evaluateWith_threshold (source : String) :
    ∃ threshold, threshold ≤ (tokens source).countP (fun t => t.token.mayNest) ∧
      (∃ outcome, (∀ position, outcome ≠ .error ⟨.nestingTooDeep, position⟩) ∧
        ∀ maxDepth, threshold ≤ maxDepth → evaluateWith source maxDepth = outcome) ∧
      (∀ maxDepth, maxDepth < threshold →
        ∃ before t after, tokens source = before ++ t :: after ∧
          OpensFirst before t (maxDepth + 1) ∧
          evaluateWith source maxDepth = .error ⟨.nestingTooDeep, t.position⟩) ∧
      ∀ d d' position position', d < d' → d' < threshold →
        evaluateWith source d = .error ⟨.nestingTooDeep, position⟩ →
        evaluateWith source d' = .error ⟨.nestingTooDeep, position'⟩ → position < position' := by
  have hcount : ∀ position,
      evaluateWith source ((tokens source).countP fun t => t.token.mayNest) ≠
        .error ⟨.nestingTooDeep, position⟩ := by
    intro position h
    obtain ⟨before, t, -, hrefused⟩ := refusedAt_of_evaluateWith h
    exact absurd hrefused.lt_countP (Nat.lt_irrefl _)
  have hexists : ∃ maxDepth, ∀ position,
      evaluateWith source maxDepth ≠ .error ⟨.nestingTooDeep, position⟩ := ⟨_, hcount⟩
  classical
  refine ⟨Nat.find hexists, Nat.find_min' hexists hcount,
    ⟨_, Nat.find_spec hexists, fun maxDepth hle => evaluateWith_mono hle (Nat.find_spec hexists)⟩,
    fun maxDepth hlt => ?_, fun d d' position position' hlt _ h h' => ?_⟩
  · obtain ⟨position, h⟩ := not_forall_not.1 (Nat.find_min hexists hlt)
    obtain ⟨before, t, rfl, hrefused⟩ := refusedAt_of_evaluateWith h
    have hfirst := hrefused.opensFirst
    obtain ⟨after, -, -, -, htokens, -⟩ := hrefused
    exact ⟨before, t, after, htokens, hfirst, h⟩
  · obtain ⟨before, t, rfl, hrefused⟩ := refusedAt_of_evaluateWith h
    obtain ⟨before', t', rfl, hrefused'⟩ := refusedAt_of_evaluateWith h'
    have hlength := hrefused.length_lt hrefused' hlt
    obtain ⟨after, -, -, -, htokens, -⟩ := hrefused
    obtain ⟨after', -, -, -, htokens', -⟩ := hrefused'
    exact position_lt_of_length_lt htokens htokens' hlength

/-- A level too many is blamed before anything behind it, and not blamed at all within the limit. -/
example : evaluateWith "1 + -(2" 1 = .error ⟨.nestingTooDeep, 6⟩ ∧
    evaluateWith "1 + -(2" 2 = .error ⟨.unmatchedParenthesis, 6⟩ := by decide +kernel

end Reckon
