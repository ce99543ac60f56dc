import Reckon.Proofs.Readback
import Reckon.Proofs.Rounding.Order

/-!
# Results in order

`Shown` is the number that the text of a value denotes (`shown_of_denotes`), by the value alone:
the nearest whole number or the rounding to fifteen digits. Below `10 ^ 15` a whole number has no
more digits than that, so neither rounding passes it: a value that is not near enough to a whole
number is on the same side of it as its rounding (`Shown.whole_le`). So the texts of two results
denote numbers in the order of the results, also where one is written as a whole number and the
other is not (`renderNumber_mono`).
-/

namespace Reckon

/-! ## The number of a text -/

/-- The number that the text of a value denotes. -/
inductive Shown (q : ℚ) : ℚ → Prop
  | whole : IsWhole q → Shown q (roundAway q)
  | significant {d : ℚ} : ¬ IsWhole q → Significant 15 q d → Shown q d

/-- A whole number that is written denotes itself. -/
theorem denotes_toString (z : Int) : Denotes (toString z) z := by
  refine ⟨decide (z < 0), .ofNat z.natAbs, Numeral.ofNat_wellFormed _, toList_toString z, ?_⟩
  rw [Numeral.ofNat_value, Nat.cast_natAbs]
  by_cases hz : z < 0
  · rw [decide_eq_true hz, abs_of_neg hz, Int.cast_neg, signed_true, neg_neg]
  · rw [decide_eq_false hz, abs_of_nonneg (not_lt.1 hz), signed_false]

section
variable {x : Float} {q r d e : ℚ}

/-- A result denotes what is shown of the number. -/
theorem exists_denotes_shown (hx : x.isFinite) :
    ∃ d, Denotes (renderNumber x) d ∧ Shown (exactValue x) d := by
  by_cases hwhole : IsWhole (exactValue x)
  · refine ⟨_, ?_, .whole hwhole⟩
    rw [(renderNumber_whole hx hwhole).1]
    exact denotes_toString _
  · obtain ⟨d, n, hsignificant, htext, hn, -, hvalue, -, -⟩ := renderNumber_significant hx hwhole
    refine ⟨d, ⟨decide (exactValue x < 0), n, hn, by rw [htext, toList_sign], ?_⟩,
      .significant hwhole hsignificant⟩
    rw [hvalue]
    exact hsignificant.eq_signed_abs

/-- A text denotes what is shown of the value. -/
theorem shown_of_denotes (hx : x.isFinite) (h : Denotes (renderNumber x) d) :
    Shown (exactValue x) d := by
  obtain ⟨d', hdenotes, hshown⟩ := exists_denotes_shown hx
  exact h.unique hdenotes ▸ hshown

/-! ## Near a whole number -/

/-- No number is near two whole ones. -/
theorem wholeTolerance_lt : exactValue wholeTolerance < 1 / 2 := by
  have hhalf : exactValue 0.5 = 1 / 2 := by
    have hunits : Binary64.ofFloat 0.5 = .finite false (twoPow 1073) := by decide +kernel
    rw [exactValue_eq hunits, signed_false, Binary64.one, cast_twoPow, cast_twoPow,
      pow_succ (2 : ℚ) 1073, div_mul_cancel_left₀ (by positivity), one_div]
  rw [← hhalf]
  exact (lt_iff_exactValue_lt (by decide +kernel) (by decide +kernel)).1 (by decide +kernel)

/-- A number that is taken for a whole one is nearer to it than half of one. -/
theorem IsWhole.dist_lt (h : IsWhole q) : |q - roundAway q| < 1 / 2 :=
  h.1.trans wholeTolerance_lt

/-- The opposite of a number that is taken for whole is, too. -/
theorem IsWhole.neg (h : IsWhole q) : IsWhole (-q) := by
  obtain ⟨hnear, hrange⟩ := h
  refine ⟨?_, ?_⟩
  · rwa [roundAway_neg, Int.cast_neg, ← neg_sub', abs_neg]
  · rwa [roundAway_neg, abs_neg]

/-- What lies between a number and its whole number is near enough to that, too. -/
theorem IsWhole.of_between (h : IsWhole q) (hqr : q ≤ r) (hr : r ≤ roundAway q) : IsWhole r := by
  have hdist : |r - roundAway q| ≤ |q - roundAway q| := by
    rw [abs_of_nonpos (sub_nonpos.2 hr), abs_of_nonpos (sub_nonpos.2 (hqr.trans hr))]
    linarith
  have hsame : roundAway r = roundAway q := roundAway_eq (hdist.trans_lt h.dist_lt)
  rw [IsWhole, hsame]
  exact ⟨hdist.trans_lt h.1, h.2⟩

/-- A value in range is near a whole number that has no more than fifteen digits, or is the next
power of ten. -/
theorem IsWhole.abs_le (h : IsWhole q) (hrange : |q| < 10 ^ 15) : |roundAway q| ≤ 10 ^ 15 := by
  obtain ⟨hlow, hhigh⟩ := abs_lt.1 h.dist_lt
  obtain ⟨hlow', hhigh'⟩ := abs_lt.1 hrange
  have hless : |(roundAway q : ℚ)| < 10 ^ 15 + 1 := abs_lt.2 ⟨by linarith, by linarith⟩
  have hint : |roundAway q| < 10 ^ 15 + 1 := by exact_mod_cast hless
  omega

/-! ## Order -/

namespace Shown

/-- A value that is not near enough to the whole number of a smaller one is above that number, and
so is its rounding. -/
theorem whole_le (hq : IsWhole q) (hr : ¬ IsWhole r) (he : Significant 15 r e) (hle : q ≤ r)
    (hrange : |q| < 10 ^ 15) : (roundAway q : ℚ) ≤ e := by
  have habove : (roundAway q : ℚ) ≤ r :=
    le_of_lt (not_le.1 fun hbelow => hr (hq.of_between hle hbelow))
  exact (Significant.intCast (by decide) (hq.abs_le hrange)).mono he (by decide) habove

/-- What is shown of two values is in their order. -/
theorem mono (hd : Shown q d) (he : Shown r e) (hle : q ≤ r) (hq : |q| < 10 ^ 15)
    (hr : |r| < 10 ^ 15) : d ≤ e := by
  cases hd with
  | whole hwhole =>
    cases he with
    | whole hwhole' =>
      obtain ⟨-, hbelow⟩ := abs_lt.1 hwhole'.dist_lt
      obtain ⟨habove, -⟩ := abs_lt.1 hwhole.dist_lt
      have hless : (roundAway q : ℚ) < roundAway r + 1 := by linarith
      exact_mod_cast Int.lt_add_one_iff.1 (by exact_mod_cast hless)
    | significant hnone he => exact whole_le hwhole hnone he hle hq
  | significant hnone hd =>
    cases he with
    | whole hwhole' =>
      -- from the other side of zero the whole number is that of the smaller value
      have hopposite := whole_le hwhole'.neg (fun hwhole => hnone (neg_neg q ▸ hwhole.neg)) hd.neg
        (neg_le_neg hle) (by rwa [abs_neg])
      rw [roundAway_neg, Int.cast_neg] at hopposite
      exact neg_le_neg_iff.1 hopposite
    | significant _ he => exact hd.mono he (by decide) hle

end Shown

end

/-- The limit of the order is a double. -/
theorem abs_lt_iff_abs_exactValue_lt {x : Float} (hx : x.isFinite) :
    x.abs < 1e15 ↔ |exactValue x| < 10 ^ 15 := by
  have hone : (Binary64.one : ℚ) ≠ 0 := (Nat.cast_pos.2 Binary64.one_pos).ne'
  have hunits : Binary64.ofFloat 1e15 = .finite false (10 ^ 15 * Binary64.one) := by decide +kernel
  have hlimit : exactValue 1e15 = 10 ^ 15 := by
    rw [exactValue_eq hunits, signed_false, Nat.cast_mul, mul_div_cancel_right₀ _ hone,
      Nat.cast_pow, Nat.cast_ofNat]
  obtain ⟨hfinite, habs⟩ := exactValue_abs hx
  rw [lt_iff_exactValue_lt hfinite (by decide +kernel), habs, hlimit]

/-- Below `10 ^ 15`, on either side of zero, the texts of two results denote numbers that are in
the order of the results: what is written as a whole number, because it is near enough to one, is
still in order with what is rounded to fifteen digits. -/
theorem renderNumber_mono {x y : Float} (hx : x.isFinite) (hy : y.isFinite) (hle : x ≤ y)
    (hx' : x.abs < 1e15) (hy' : y.abs < 1e15) :
    (∃! d, Denotes (renderNumber x) d) ∧ (∃! e, Denotes (renderNumber y) e) ∧
      ∀ d e, Denotes (renderNumber x) d → Denotes (renderNumber y) e → d ≤ e := by
  have hunique {x : Float} (hx : x.isFinite) : ∃! d, Denotes (renderNumber x) d := by
    obtain ⟨d, hd, -⟩ := exists_denotes_shown hx
    exact ⟨d, hd, fun d' hd' => hd'.unique hd⟩
  refine ⟨hunique hx, hunique hy, fun d e hd he => ?_⟩
  exact (shown_of_denotes hx hd).mono (shown_of_denotes hy he) ((le_iff_exactValue_le hx hy).1 hle)
    ((abs_lt_iff_abs_exactValue_lt hx).1 hx') ((abs_lt_iff_abs_exactValue_lt hy).1 hy')

/-- The smaller of these two is too far from one, and the larger is near enough. -/
theorem renderNumber_mono_one :
    (0.999999999998 : Float) ≤ 0.9999999999995 ∧ renderNumber 0.9999999999995 = "1" ∧
      ∀ d, Denotes (renderNumber 0.999999999998) d → d ≤ 1 := by
  have hle : (0.999999999998 : Float) ≤ 0.9999999999995 := by decide +kernel
  have htext : renderNumber 0.9999999999995 = toString (1 : Int) := by decide +kernel
  obtain ⟨-, -, hall⟩ := renderNumber_mono (by decide +kernel) (by decide +kernel) hle
    (by decide +kernel) (by decide +kernel)
  refine ⟨hle, htext, fun d hd => ?_⟩
  have hone : Denotes (renderNumber 0.9999999999995) ((1 : Int) : ℚ) := by
    rw [htext]
    exact denotes_toString 1
  exact_mod_cast hall d _ hd hone

end Reckon
