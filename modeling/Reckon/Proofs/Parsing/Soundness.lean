import Reckon.Proofs.Parsing

/-!
# A parse keeps to the grammar

What a parse has read can be recovered from its state: `Parsing.After` says that a state has taken
the tokens `ts` and completed the operators `ops`, that its frames and its operand are parts of a
derivation, and that nothing in it nests deeper than the limit. It holds at the start, a turn
preserves it (`Parsing.After.react`), and so does a run (`Parsing.Reads.after`). A parse that ends
in a tree therefore ends in a derivation of exactly the tokens that it has taken
(`Parsing.After.run_ok`).

While one token completes operand after operand, the operand at hand is no primary any more, and
what may still go on with it depends on that token. `Parsing.Ready` is the invariant of these steps.
-/

namespace Reckon

/-! ## What the frames hold -/

/-- The tokens that a frame has taken. -/
def Frame.tokens : Frame → List Placed
  | .binary op left position => left.tokens ++ [⟨op.token, position⟩]
  | .unary op position => [⟨op.token, position⟩]
  | .group position => [⟨.opening, position⟩]

/-- The operators that are complete in a frame. -/
def Frame.operations : Frame → List Expr
  | .binary _ left _ => left.operations
  | .unary _ _ => []
  | .group _ => []

/-- The depth of what a frame and an operand of the given depth make up. -/
def Frame.depth : Frame → Nat → Nat
  | .binary .pow left _, d => max left.depth (1 + d)
  | .binary _ left _, d => max left.depth d
  | .unary _ _, d => 1 + d
  | .group _, d => 1 + d

namespace Parsing

/-- The tokens that the frames have taken. -/
def tokensOf : List Frame → List Placed
  | [] => []
  | f :: below => tokensOf below ++ f.tokens

/-- The operators that are complete in the frames. -/
def operationsOf : List Frame → List Expr
  | [] => []
  | f :: below => operationsOf below ++ f.operations

/-- The depth of what the frames and an operand of the given depth make up. -/
def depthOf : List Frame → Nat → Nat
  | [], d => d
  | f :: below, d => depthOf below (f.depth d)

/-- Each frame begins an operand of the level that is awaited where it stands. -/
inductive Fits (goal : Level) : List Frame → Prop
  | nil : Fits goal []
  | binary {below : List Frame} {op : BinaryOp} {left : Expr} (position : Nat) :
      Fits goal below → op.level ≤ awaited goal below → Derives op.leftLevel left →
      Fits goal (.binary op left position :: below)
  | unary {below : List Frame} (op : UnaryOp) (position : Nat) :
      Fits goal below → .factor ≤ awaited goal below → Fits goal (.unary op position :: below)
  | group {below : List Frame} (position : Nat) :
      Fits goal below → Fits goal (.group position :: below)

/-- The operand of the frames is the only part of them whose depth is open. -/
theorem depthOf_eq_max (frames : List Frame) (d : Nat) :
    depthOf frames d = max (depthOf frames 0) (nesting frames + d) := by
  induction frames generalizing d with
  | nil => simp [depthOf, nesting]
  | cons f below ih =>
    rw [depthOf, depthOf, ih (f.depth d), ih (f.depth 0), nesting]
    cases f with
    | binary op left position => cases op <;> simp only [Frame.depth, Frame.levels] <;> omega
    | unary | group => simp only [Frame.depth, Frame.levels]; omega

/-- What continues an operand is an operator of a level that is awaited. -/
theorem continues?_eq_some {l : Level} {t : Token} {op : BinaryOp}
    (h : Evaluation.continues? l t = some op) : t = op.token ∧ op.level ≤ l := by
  obtain ⟨hop, hlevel⟩ := Option.filter_eq_some_iff.1 h
  exact ⟨Token.binaryOp?_eq_some_iff.1 hop, of_decide_eq_true hlevel⟩

/-- An operator goes on with an operand of its level. -/
theorem continues?_token {l : Level} {op : BinaryOp} (h : op.level ≤ l) :
    Evaluation.continues? l op.token = some op :=
  Option.filter_eq_some_iff.2 ⟨op.binaryOp?_token, decide_eq_true h⟩

/-- An operator that does not continue the right operand of another one takes what the other one
makes up as its left operand. -/
theorem level_le_leftLevel {op next : BinaryOp} (h : ¬ next.level ≤ op.rightLevel) :
    op.level ≤ next.leftLevel := by
  revert h
  cases op <;> cases next <;> decide

/-- An operator that binds more loosely than a sign takes factors on its left. -/
theorem factor_le_leftLevel {next : BinaryOp} (h : ¬ next.level ≤ .factor) :
    .factor ≤ next.leftLevel := by
  revert h
  cases next <;> decide

/-! ## The invariants -/

/-- The state has taken the tokens `ts` and completed the operators `ops`. -/
structure After (goal : Level) (maxDepth : Nat) (ts : List Placed) (ops : List Expr)
    (p : Parsing) : Prop where
  fits : Fits goal p.frames
  primary : ∀ x, p.operand = some x → Derives .primary x
  tokens : tokensOf p.frames ++ p.operand.elim [] Expr.tokens = ts
  operations : operationsOf p.frames ++ p.operand.elim [] Expr.operations = ops
  depth : depthOf p.frames (p.operand.elim 0 Expr.depth) ≤ maxDepth

/-- The operand `x` is complete on the frames, and the token `t` comes next. -/
structure Ready (goal : Level) (maxDepth : Nat) (t : Placed) (ts : List Placed) (ops : List Expr)
    (frames : List Frame) (x : Expr) : Prop where
  fits : Fits goal frames
  derives : Derives (awaited goal frames) x
  left : ∀ op, Evaluation.continues? (awaited goal frames) t.token = some op →
    Derives op.leftLevel x
  tokens : tokensOf frames ++ x.tokens = ts
  operations : operationsOf frames ++ x.operations = ops
  depth : depthOf frames x.depth ≤ maxDepth

section
variable {goal : Level} {maxDepth : Nat} {t : Placed} {ts : List Placed} {ops : List Expr}
  {frames below : List Frame} {f : Frame} {x y : Expr} {p q : Parsing}

/-- At the start, no token is taken. -/
theorem After.start : After goal maxDepth [] [] start :=
  ⟨.nil, nofun, rfl, rfl, Nat.zero_le _⟩

/-- Where an operand has to come, the frames have taken all tokens. -/
theorem After.of_frames (hfits : Fits goal frames) (htokens : tokensOf frames = ts)
    (hoperations : operationsOf frames = ops) (hdepth : depthOf frames 0 ≤ maxDepth) :
    After goal maxDepth ts ops ⟨frames, none⟩ := by
  refine ⟨hfits, fun x hx => ?_, ?_, ?_, hdepth⟩
  · cases hx
  · rw [← htokens]
    exact List.append_nil _
  · rw [← hoperations]
    exact List.append_nil _

/-- A primary may stand wherever an operand may. -/
theorem After.ready (h : After goal maxDepth ts ops ⟨frames, some x⟩) (t : Placed) :
    Ready goal maxDepth t ts ops frames x := by
  have hx : Derives .primary x := h.primary x rfl
  exact ⟨h.fits, hx.mono (Nat.zero_le _), fun op _ => hx.mono (Nat.zero_le _), h.tokens,
    h.operations, h.depth⟩

/-- Opening a frame keeps within the limit what was within it. -/
theorem depthOf_push {d : Nat} (h : depthOf frames d ≤ maxDepth) (hf : f.depth 0 ≤ max d f.levels)
    (hpush : push maxDepth frames f = .shift q) :
    q = ⟨f :: frames, none⟩ ∧ depthOf (f :: frames) 0 ≤ maxDepth := by
  unfold push at hpush
  split at hpush
  · cases hpush
  · next hroom =>
    cases hpush
    refine ⟨rfl, ?_⟩
    rw [depthOf_eq_max] at h
    have hle := f.levels_le_one
    rw [depthOf, depthOf_eq_max]
    omega

/-- Where nothing goes on with the last operand of an operator, the operator is the operand of the
frames below. -/
theorem Ready.complete (h : Ready goal maxDepth t ts ops (f :: below) x)
    (hy : f.complete? x = some y)
    (hc : Evaluation.continues? (awaited goal (f :: below)) t.token = none) :
    Ready goal maxDepth t ts (ops ++ [y]) below y := by
  have hnext {next : BinaryOp} (ht : t.token = next.token) : ¬ next.level ≤ f.awaits := by
    intro hle
    rw [ht, continues?_token (by exact hle)] at hc
    cases hc
  obtain ⟨hfits, hderives, -, htokens, hoperations, hdepth⟩ := h
  cases hfits with
  | group => cases hy
  | @binary _ op left position hbelow hlevel hleft =>
    cases hy
    have hy := Derives.binary position hleft hderives
    refine ⟨hbelow, hy.mono hlevel, fun next hcont => hy.mono ?_, ?_, ?_, ?_⟩
    · exact level_le_leftLevel (hnext (continues?_eq_some hcont).1)
    · rw [← htokens, tokensOf, Frame.tokens, Expr.tokens]
      simp
    · rw [← hoperations, operationsOf, Frame.operations, Expr.operations]
      simp
    · cases op <;> exact hdepth
  | unary op position hbelow hlevel =>
    cases hy
    have hy := Derives.signed op position hderives
    refine ⟨hbelow, hy.mono hlevel, fun next hcont => hy.mono ?_, ?_, ?_, hdepth⟩
    · exact factor_le_leftLevel (hnext (continues?_eq_some hcont).1)
    · rw [← htokens, tokensOf, Frame.tokens, Expr.tokens]
      simp
    · rw [← hoperations, operationsOf, Frame.operations, Expr.operations]
      simp

/-- An operator that goes on with an operand has taken it. -/
theorem Ready.push (h : Ready goal maxDepth t ts ops frames x) {op : BinaryOp}
    (hc : Evaluation.continues? (awaited goal frames) t.token = some op)
    (hpush : push maxDepth frames (.binary op x t.position) = .shift q) :
    After goal maxDepth (ts ++ [t]) ops q := by
  obtain ⟨htoken, hlevel⟩ := continues?_eq_some hc
  have hdeep : (Frame.binary op x t.position).depth 0 ≤
      max x.depth (Frame.binary op x t.position).levels := by
    cases op <;> simp [Frame.depth, Frame.levels]
  obtain ⟨rfl, hdepth⟩ := depthOf_push h.depth hdeep hpush
  refine .of_frames (.binary _ h.fits hlevel (h.left op hc)) ?_ ?_ hdepth
  · rw [← h.tokens, tokensOf, Frame.tokens, ← htoken, List.append_assoc]
  · rw [← h.operations, operationsOf, Frame.operations]

/-- The invariant holds while operators are completed. -/
theorem Ready.pops (h : Ready goal maxDepth t ts ops frames x) {completed : List Expr}
    (hpops : Pops goal t frames x completed below y) :
    Ready goal maxDepth t ts (ops ++ completed) below y := by
  induction hpops generalizing ops with
  | nil => rwa [List.append_nil]
  | cons hy hc _ ih =>
    rw [List.append_cons]
    exact ih (h.complete hy hc)

/-- A token that is taken where an operand is complete. -/
theorem Ready.shift (h : Ready goal maxDepth t ts ops frames x) {completed : List Expr}
    (hshift : settle goal maxDepth t frames x = ⟨completed, .shift q⟩) :
    After goal maxDepth (ts ++ [t]) (ops ++ completed) q := by
  obtain ⟨completed', move, hsettles, hsettle⟩ := settle_settles goal t frames x
  rw [hsettle] at hshift
  injection hshift with hcompleted hmove
  subst hcompleted
  cases hsettles with
  | continues hpops hop => exact (h.pops hpops).push hop hmove
  | whole | unclosed => cases hmove
  | @closes below opening y hpops ht =>
    cases hmove
    obtain ⟨hfits, hderives, -, htokens, hoperations, hdepth⟩ := h.pops hpops
    cases hfits with
    | group _ hbelow =>
      refine ⟨hbelow, ?_, ?_, ?_, hdepth⟩
      · rintro _ ⟨⟩
        exact .group opening t.position hderives
      · rw [← htokens, tokensOf, Frame.tokens]
        simp [Expr.tokens, ← ht]
      · rw [← hoperations, operationsOf, Frame.operations, List.append_nil]
        rfl

/-- A tree that is whole derives exactly the tokens that were taken. -/
theorem Ready.accept (h : Ready goal maxDepth t ts ops frames x) {completed : List Expr}
    (hstop : settle goal maxDepth t frames x = ⟨completed, .stop (.ok y)⟩) :
    Derives goal y ∧ y.tokens = ts ∧ y.operations = ops ++ completed ∧ y.depth ≤ maxDepth := by
  rcases settle_eq_stop hstop with ⟨z, hresult, hpops, -⟩ | ⟨_, _, _, hresult, -⟩
  · cases hresult
    obtain ⟨-, hderives, -, htokens, hoperations, hdepth⟩ := h.pops hpops
    exact ⟨hderives, htokens, hoperations, hdepth⟩
  · cases hresult

/-! ## Turns and runs -/

/-- A token that is taken where an operand has to come. -/
theorem After.expect (h : After goal maxDepth ts ops ⟨frames, none⟩)
    (hshift : expect goal maxDepth frames t = .shift q) :
    After goal maxDepth (ts ++ [t]) ops q := by
  obtain ⟨hfits, -, htokens, hoperations, hdepth⟩ := h
  simp only [Option.elim, List.append_nil] at htokens hoperations hdepth
  obtain ⟨move, hexpects, hexpect⟩ := expect_expects goal t frames
  rw [hexpect] at hshift
  cases hexpects with
  | @number value ht =>
    cases hshift
    refine ⟨hfits, ?_, ?_, ?_, hdepth⟩
    · rintro _ ⟨⟩
      exact .number value t.position
    · show tokensOf frames ++ [⟨.number value, t.position⟩] = ts ++ [t]
      rw [htokens, ← ht]
    · rw [hoperations]
      exact List.append_nil _
  | opening ht =>
    obtain ⟨rfl, hdeep⟩ := depthOf_push hdepth (by simp [Frame.depth, Frame.levels]) hshift
    refine .of_frames (.group _ hfits) ?_ ?_ hdeep
    · rw [← htokens, tokensOf, Frame.tokens, ← ht]
    · rw [← hoperations, operationsOf, Frame.operations, List.append_nil]
  | @sign op ht hlevel =>
    obtain ⟨rfl, hdeep⟩ := depthOf_push hdepth (by simp [Frame.depth, Frame.levels]) hshift
    refine .of_frames (.unary op _ hfits hlevel) ?_ ?_ hdeep
    · rw [← htokens, tokensOf, Frame.tokens, ← ht]
    · rw [← hoperations, operationsOf, Frame.operations, List.append_nil]
  | unexpected => cases hshift

/-- A token that is taken belongs to what was read. -/
theorem After.react (h : After goal maxDepth ts ops p) {completed : List Expr}
    (hreact : Parsing.react goal maxDepth p t = ⟨completed, .shift q⟩) :
    After goal maxDepth (ts ++ [t]) (ops ++ completed) q := by
  obtain ⟨frames, operand⟩ := p
  cases operand with
  | some x => exact (h.ready t).shift hreact
  | none =>
    injection hreact with hcompleted hmove
    subst hcompleted
    rw [List.append_nil]
    exact h.expect hmove

/-- Behind more tokens, a parse has taken those as well. -/
theorem Reads.after {completed : List Expr} {us : List Placed}
    (hreads : Reads goal maxDepth p us completed q) (h : After goal maxDepth ts ops p) :
    After goal maxDepth (ts ++ us) (ops ++ completed) q := by
  induction hreads generalizing ts ops with
  | nil => rwa [List.append_nil, List.append_nil]
  | cons hreact _ ih =>
    rw [List.append_cons, ← List.append_assoc]
    exact ih (h.react hreact)

/-- The invariant holds of what is read from the start on. -/
theorem Reads.after_start (h : Reads goal maxDepth start ts ops p) : After goal maxDepth ts ops p :=
  h.after .start

/-- A parse that ends in a tree has derived it from the tokens that it has taken. -/
theorem After.run_ok {us : List Placed} (h : After goal maxDepth us ops p)
    (hok : (Parsing.run goal maxDepth p ts).result = .ok x) :
    Derives goal x ∧ x.tokens ++ (Parsing.run goal maxDepth p ts).rest = us ++ ts ∧
      x.operations = ops ++ (Parsing.run goal maxDepth p ts).completed ∧ x.depth ≤ maxDepth := by
  induction ts generalizing p us ops with
  | nil => cases hok
  | cons t ts ih =>
    rcases hreact : Parsing.react goal maxDepth p t with ⟨done, move⟩
    rw [Parsing.run, hreact] at hok ⊢
    cases move with
    | shift next =>
      obtain ⟨hderives, htokens, hoperations, hdepth⟩ := ih (h.react hreact) hok
      rw [List.append_assoc] at htokens hoperations
      exact ⟨hderives, htokens, hoperations, hdepth⟩
    | refuse error => cases hok
    | stop result =>
      dsimp only at hok
      subst hok
      obtain ⟨frames, operand⟩ := p
      cases operand with
      | none =>
        injection hreact with _ hstop
        cases expect_eq_stop hstop
      | some y =>
        obtain ⟨hderives, htokens, hoperations, hdepth⟩ := (h.ready t).accept hreact
        exact ⟨hderives, by rw [htokens], hoperations, hdepth⟩

/-! ## The operators that are listed -/

/-- The operators that are complete in the frames are parts of what the frames have taken. -/
theorem Fits.standsIn (h : Fits goal frames) :
    ∀ y ∈ operationsOf frames, y.StandsIn (tokensOf frames) := by
  induction h with
  | nil => exact nofun
  | binary position _ _ hleft ih =>
    intro y hy
    rw [tokensOf, Frame.tokens]
    rcases List.mem_append.1 hy with hy | hy
    · exact (ih y hy).mono List.infix_append_left
    · exact (hleft.standsIn_operations y hy).mono (List.infix_append' ..)
  | unary _ _ _ _ ih | group _ _ ih =>
    intro y hy
    rw [operationsOf, Frame.operations, List.append_nil] at hy
    exact (ih y hy).mono List.infix_append_left

/-- So are those in an operand of the frames. -/
theorem Fits.standsIn_operand (h : Fits goal frames) {l : Level} (hx : Derives l x) :
    ∀ y ∈ operationsOf frames ++ x.operations, y.StandsIn (tokensOf frames ++ x.tokens) := by
  intro y hy
  rcases List.mem_append.1 hy with hy | hy
  · exact (h.standsIn y hy).mono List.infix_append_left
  · exact (hx.standsIn_operations y hy).mono List.infix_append_right

/-- What is completed stands in the tokens that were taken. -/
theorem After.standsIn (h : After goal maxDepth ts ops p) : ∀ y ∈ ops, y.StandsIn ts := by
  obtain ⟨frames, operand⟩ := p
  rw [← h.operations, ← h.tokens]
  cases operand with
  | none =>
    simp only [Option.elim, List.append_nil]
    exact h.fits.standsIn
  | some x => exact h.fits.standsIn_operand (h.primary x rfl)

/-- What a turn completes is a part of what was taken before it. -/
theorem After.react_standsIn (h : After goal maxDepth ts ops p) (t : Placed) :
    ∀ y ∈ ops ++ (Parsing.react goal maxDepth p t).completed, y.StandsIn ts := by
  obtain ⟨frames, operand⟩ := p
  cases operand with
  | none =>
    rw [react_none, List.append_nil]
    exact h.standsIn
  | some x =>
    obtain ⟨completed, move, hsettles, hsettle⟩ := settle_settles goal t frames x
    obtain ⟨below, y, hpops⟩ := hsettles.pops
    have hready := (h.ready t).pops hpops
    rw [react_some, hsettle, ← hready.operations, ← hready.tokens]
    exact hready.fits.standsIn_operand hready.derives

/-- What a run lists are parts of the tokens that it is given. -/
theorem After.run_standsIn {us : List Placed} (h : After goal maxDepth us ops p) :
    ∀ y ∈ ops ++ (Parsing.run goal maxDepth p ts).completed, y.StandsIn (us ++ ts) := by
  induction ts generalizing p us ops with
  | nil =>
    rw [List.append_nil]
    exact fun y hy => h.standsIn y (by rwa [Parsing.run, List.append_nil] at hy)
  | cons t ts ih =>
    have hturn := h.react_standsIn t
    rcases hreact : Parsing.react goal maxDepth p t with ⟨done, move⟩
    rw [hreact] at hturn
    rw [Parsing.run, hreact]
    cases move with
    | shift next =>
      have hrest := ih (h.react hreact)
      rwa [List.append_assoc, ← List.append_cons] at hrest
    | refuse error => exact fun y hy => (hturn y hy).mono List.infix_append_left
    | stop result => exact fun y hy => (hturn y hy).mono List.infix_append_left

end

end Parsing

end Reckon
