import Reckon.Proofs.Parsing.Soundness

/-!
# A parse accepts whatever the grammar derives

`Recognised l x` says that a parse which wants an operand of level `l` reads the tokens of `x`, if
they nest within the limit, and behind them reacts as with the operand `x` to every token that
cannot go on with a part of `x`. Every derivation is recognised (`Derives.recognised`), by induction
on the derivation. So a parse of the tokens of a derivation ends in that derivation
(`Derives.run`), and no two derivations have the same tokens (`Derives.unique`).
-/

namespace Reckon

/-- The level of the last operand in what a level consists of. -/
def Level.last : Level → Level
  | .primary => .primary
  | .power => .power
  | .factor => .factor
  | .term => .factor
  | .expression => .term

/-- The last operand of a level binds at least as strongly. -/
theorem Level.last_le (l : Level) : l.last ≤ l := by
  cases l <;> decide

/-- The last operand of an operator is its right one. -/
theorem BinaryOp.last_level (op : BinaryOp) : op.level.last = op.rightLevel := by
  cases op <;> rfl

/-- The left operand of an operator binds at least as strongly. -/
theorem BinaryOp.leftLevel_le_level (op : BinaryOp) : op.leftLevel ≤ op.level := by
  cases op <;> decide

namespace Parsing

/-- What does not go on with an operand of a level does not with one that binds more tightly. -/
theorem continues?_eq_none_of_le {a b : Level} {t : Token} (hab : a ≤ b)
    (h : Evaluation.continues? b t = none) : Evaluation.continues? a t = none := by
  cases ha : Evaluation.continues? a t with
  | none => rfl
  | some op =>
    obtain ⟨rfl, hlevel⟩ := continues?_eq_some ha
    rw [continues?_token (Nat.le_trans hlevel hab)] at h
    cases h

/-- No operator goes on with its own left operand as a part of that operand. -/
theorem continues?_leftLevel_last (op : BinaryOp) :
    Evaluation.continues? op.leftLevel.last op.token = none := by
  cases op <;> rfl

/-- Within the limit, a frame is put on the others. -/
theorem push_eq_shift {maxDepth : Nat} {frames : List Frame} {f : Frame}
    (h : nesting frames + f.levels ≤ maxDepth) :
    push maxDepth frames f = .shift ⟨f :: frames, none⟩ :=
  if_neg (by omega)

/-- Where an operand of level `l` is wanted, a parse reads the tokens of `x` as one. -/
def Recognised (l : Level) (x : Expr) : Prop :=
  ∀ (goal : Level) (maxDepth : Nat) (frames : List Frame),
    l ≤ awaited goal frames → nesting frames + x.depth ≤ maxDepth →
      ∃ done later q, Reads goal maxDepth ⟨frames, none⟩ x.tokens done q ∧
        done ++ later = x.operations ∧
        ∀ t : Placed, Evaluation.continues? l.last t.token = none →
          react goal maxDepth q t =
            ⟨later ++ (settle goal maxDepth t frames x).completed,
              (settle goal maxDepth t frames x).move⟩

section
variable {a b : Level} {x body left right : Expr}

/-- What is recognised at a level is recognised at those that bind more loosely. -/
theorem Recognised.mono (h : Recognised a x) (hab : a ≤ b) (hlast : a.last ≤ b.last) :
    Recognised b x := by
  intro goal maxDepth frames hlevel hdepth
  obtain ⟨done, later, q, hreads, hops, hreact⟩ :=
    h goal maxDepth frames (Nat.le_trans hab hlevel) hdepth
  exact ⟨done, later, q, hreads, hops, fun t ht => hreact t (continues?_eq_none_of_le hlast ht)⟩

/-- A number is recognised. -/
theorem Recognised.number (value : Float) (position : Nat) :
    Recognised .primary (.number value position) := by
  intro goal maxDepth frames _ _
  have htake : react goal maxDepth ⟨frames, none⟩ ⟨.number value, position⟩ =
      ⟨[], .shift ⟨frames, some (.number value position)⟩⟩ := by
    rw [react_none, expect_number rfl]
  exact ⟨[], [], ⟨frames, some (.number value position)⟩, .cons htake .nil, rfl, fun t _ => rfl⟩

/-- What is in parentheses is recognised if it is without them. -/
theorem Recognised.group (h : Recognised .expression body) (opening closing : Nat) :
    Recognised .primary (.group opening body closing) := by
  intro goal maxDepth frames _ hdepth
  rw [Expr.depth] at hdepth
  obtain ⟨done, later, q, hreads, hops, hreact⟩ :=
    h goal maxDepth (.group opening :: frames) (Nat.le_refl _)
      (by rw [nesting, Frame.levels]; omega)
  have hopen : react goal maxDepth ⟨frames, none⟩ ⟨.opening, opening⟩ =
      ⟨[], .shift ⟨.group opening :: frames, none⟩⟩ := by
    rw [react_none, expect_opening rfl, push_eq_shift]
    show nesting frames + 1 ≤ maxDepth
    omega
  have hclose := hreact ⟨.closing, closing⟩ rfl
  rw [settle_closing rfl] at hclose
  have hread := Reads.cons hopen (hreads.append (.cons hclose .nil))
  rw [List.append_nil, List.append_nil, List.nil_append, hops] at hread
  exact ⟨body.operations, [], ⟨frames, some (.group opening body closing)⟩, hread,
    List.append_nil _, fun t _ => rfl⟩

/-- A sign in front of what is recognised is. -/
theorem Recognised.unary (h : Recognised .factor x) (op : UnaryOp) (position : Nat) :
    Recognised .factor (.unary op position x) := by
  intro goal maxDepth frames hlevel hdepth
  rw [Expr.depth] at hdepth
  obtain ⟨done, later, q, hreads, hops, hreact⟩ :=
    h goal maxDepth (.unary op position :: frames) (Nat.le_refl _)
      (by rw [nesting, Frame.levels]; omega)
  have hopen : react goal maxDepth ⟨frames, none⟩ ⟨op.token, position⟩ =
      ⟨[], .shift ⟨.unary op position :: frames, none⟩⟩ := by
    rw [react_none, expect_sign rfl hlevel, push_eq_shift]
    show nesting frames + 1 ≤ maxDepth
    omega
  refine ⟨done, later ++ [.unary op position x], q, .cons hopen hreads, ?_, fun t ht => ?_⟩
  · rw [← List.append_assoc, hops, Expr.operations]
  · rw [hreact t ht, settle_complete (f := .unary op position) rfl ht]
    simp

/-- An operator between what is recognised is. -/
theorem Recognised.binary (op : BinaryOp) (hl : Recognised op.leftLevel left)
    (hr : Recognised op.rightLevel right) (position : Nat) :
    Recognised op.level (.binary op left position right) := by
  intro goal maxDepth frames hlevel hdepth
  have hdeep : nesting frames + left.depth ≤ maxDepth ∧
      nesting (.binary op left position :: frames) + right.depth ≤ maxDepth := by
    cases op <;> simp only [Expr.depth, nesting, Frame.levels] at hdepth ⊢ <;> omega
  obtain ⟨done, later, q, hreads, hops, hreact⟩ :=
    hl goal maxDepth frames (Nat.le_trans op.leftLevel_le_level hlevel) hdeep.1
  obtain ⟨done', later', q', hreads', hops', hreact'⟩ :=
    hr goal maxDepth (.binary op left position :: frames) (Nat.le_refl _) hdeep.2
  have hop := hreact ⟨op.token, position⟩ (continues?_leftLevel_last op)
  have hroom : nesting frames + (Frame.binary op left position).levels ≤ maxDepth := by
    rw [nesting] at hdeep
    omega
  rw [settle_continues (continues?_token hlevel), List.append_nil, push_eq_shift hroom] at hop
  refine ⟨done ++ (later ++ done'), later' ++ [.binary op left position right], q',
    hreads.append (.cons hop hreads'), ?_, fun t ht => ?_⟩
  · rw [Expr.operations, ← hops, ← hops']
    simp
  · rw [op.last_level] at ht
    rw [hreact' t (continues?_eq_none_of_le op.rightLevel.last_le ht),
      settle_complete (f := .binary op left position) rfl ht]
    simp

end

end Parsing

open Parsing

/-- Every derivation is recognised where an operand of its level is wanted. -/
theorem Derives.recognised {l : Level} {x : Expr} (h : Derives l x) : Recognised l x := by
  induction h with
  | number value position => exact .number value position
  | group opening closing _ ih => exact ih.group opening closing
  | signed op position _ ih => exact ih.unary op position
  | raised position _ _ ihl ihr => exact .binary .pow ihl ihr position
  | product hop position _ _ ihl ihr =>
    rcases hop with rfl | rfl
    · exact .binary .mul ihl ihr position
    · exact .binary .div ihl ihr position
  | sum hop position _ _ ihl ihr =>
    rcases hop with rfl | rfl
    · exact .binary .add ihl ihr position
    · exact .binary .sub ihl ihr position
  | base _ ih | unsigned _ ih | single _ ih | lone _ ih => exact ih.mono (by decide) (by decide)

section
variable {goal : Level} {maxDepth : Nat} {x y : Expr} {t : Placed} {rest : List Placed}

/-- A parse of the tokens of a derivation within the limit ends in it, at whatever does not go on
with it. -/
theorem Derives.run (h : Derives goal x) (hdepth : x.depth ≤ maxDepth)
    (ht : Evaluation.continues? goal t.token = none) :
    Parsing.run goal maxDepth start (x.tokens ++ t :: rest) =
      ⟨x.operations, .ok x, t :: rest⟩ := by
  obtain ⟨done, later, q, hreads, hops, hreact⟩ :=
    h.recognised goal maxDepth [] (Nat.le_refl _) (by rw [nesting]; omega)
  have hend := hreact t (continues?_eq_none_of_le goal.last_le ht)
  rw [settle_nil ht, List.append_nil] at hend
  rw [show start = ⟨[], none⟩ from rfl, hreads.run, Parsing.run, hend, ← hops]

/-- No derivation goes on behind another one of its level with a token that does not go on with
that. -/
theorem Derives.not_extends (hx : Derives goal x) (ht : Evaluation.continues? goal t.token = none)
    (hy : Derives goal y) : y.tokens ≠ x.tokens ++ t :: rest := by
  intro htokens
  have hrun : Parsing.run goal (max x.depth y.depth) start (y.tokens ++ [⟨.finish, 0⟩]) = _ :=
    hy.run (Nat.le_max_right _ _) rfl
  rw [htokens, List.append_assoc, List.cons_append, hx.run (Nat.le_max_left _ _) ht] at hrun
  injection hrun with _ _ hrest
  simp at hrest

/-- A derivation is determined by its tokens. -/
theorem Derives.unique (hx : Derives goal x) (hy : Derives goal y) (h : x.tokens = y.tokens) :
    x = y := by
  have hrun : Parsing.run goal (max x.depth y.depth) start (x.tokens ++ [⟨.finish, 0⟩]) = _ :=
    hx.run (Nat.le_max_left _ _) rfl
  rw [h, hy.run (Nat.le_max_right _ _) rfl] at hrun
  injection hrun with _ hresult
  exact (Except.ok.inj hresult).symm

end

end Reckon
