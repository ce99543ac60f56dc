import Reckon.Proofs.Rounding

/-!
# Rounding keeps the order

Rounding to significant digits does not change the order of two numbers (`Significant.mono`). The
places of the last digits differ where the numbers have different powers of ten, but then the power
of ten above the smaller number stands between the two results. A whole number with no more digits
is its own rounding (`Significant.intCast`), so that rounding does not pass it.
-/

namespace Reckon

/-! ## Whole numbers -/

/-- A whole number is the nearest to itself. -/
theorem NearestEven.natCast (n : Nat) : NearestEven n n := by
  refine ⟨?_, fun h => ?_⟩
  · rw [sub_self, abs_zero]
    norm_num
  · rw [sub_self, abs_zero] at h
    norm_num at h

/-- Rounding to the nearest whole number keeps the order. -/
theorem NearestEven.mono {q r : ℚ} {m n : Nat} (hm : NearestEven q m) (hn : NearestEven r n)
    (h : q ≤ r) : m ≤ n := by
  by_contra hlt
  have hstep : (n : ℚ) + 1 ≤ m := by exact_mod_cast not_le.1 hlt
  obtain ⟨hlow, -⟩ := abs_le.1 hm.near
  obtain ⟨-, hhigh⟩ := abs_le.1 hn.near
  -- both numbers are half way, so they are one and the same
  have hsame : q = r := by linarith
  subst hsame
  exact hlt (hm.unique hn).le

/-- A whole number at less than half the distance of one is the nearest. -/
theorem roundAway_eq {q : ℚ} {z : Int} (h : |q - z| < 1 / 2) : roundAway q = z := by
  obtain ⟨hlow, hhigh⟩ := abs_le.1 (roundAway_nearest q).1
  obtain ⟨hlow', hhigh'⟩ := abs_lt.1 h
  have hbelow : roundAway q < z + 1 := by
    have : (roundAway q : ℚ) < z + 1 := by linarith
    exact_mod_cast this
  have habove : z < roundAway q + 1 := by
    have : (z : ℚ) < roundAway q + 1 := by linarith
    exact_mod_cast this
  omega

/-! ## Significant digits -/

namespace Significant

variable {digits : Nat} {q r d e : ℚ}

/-- The rounding of a number that is not negative, in units of the last place. -/
theorem exists_eq_of_nonneg (h : Significant digits q d) (hq : 0 ≤ q) :
    ∃ n : Nat, NearestEven (q / 10 ^ lastPlace digits q) n ∧ d = n * 10 ^ lastPlace digits q := by
  obtain ⟨n, hnear, hd⟩ := h
  rw [abs_of_nonneg hq] at hnear
  rw [decide_eq_false (not_lt.2 hq), signed_false] at hd
  exact ⟨n, hnear, hd⟩

/-- Rounding does not make a number negative. -/
theorem nonneg (h : Significant digits q d) (hq : 0 ≤ q) : 0 ≤ d := by
  obtain ⟨n, -, rfl⟩ := h.exists_eq_of_nonneg hq
  exact mul_nonneg (Nat.cast_nonneg n) (zpow_nonneg (by norm_num) _)

/-- Zero is rounded to zero. -/
theorem eq_zero (h : Significant digits 0 d) : d = 0 := by
  obtain ⟨n, hnear, rfl⟩ := h.exists_eq_of_nonneg le_rfl
  rw [zero_div] at hnear
  obtain rfl : n = 0 := hnear.unique (NearestEven.natCast 0)
  rw [Nat.cast_zero, zero_mul]

/-- Opposite numbers are rounded to opposite ones. -/
theorem neg (h : Significant digits q d) : Significant digits (-q) (-d) := by
  rcases lt_trichotomy q 0 with hq | rfl | hq
  · obtain ⟨n, hnear, rfl⟩ := h
    refine ⟨n, ?_, ?_⟩
    · rwa [lastPlace, abs_neg]
    · rw [decide_eq_true hq, decide_eq_false (by linarith), signed_true, signed_false, neg_neg,
        lastPlace, lastPlace, abs_neg]
  · obtain rfl := h.eq_zero
    rwa [neg_zero]
  · exact h.signed hq true

/-- The number has the sign of what it is the rounding of. -/
theorem eq_signed_abs (h : Significant digits q d) : d = Reckon.signed (decide (q < 0)) |d| := by
  obtain ⟨n, -, rfl⟩ := h
  rw [abs_signed, abs_of_nonneg (mul_nonneg (Nat.cast_nonneg n) (zpow_nonneg (by norm_num) _))]

/-- From zero on, rounding to significant digits keeps the order. -/
theorem mono_of_nonneg (hd : Significant digits q d) (he : Significant digits r e)
    (hdigits : 0 < digits) (hq : 0 ≤ q) (hle : q ≤ r) : d ≤ e := by
  rcases hq.eq_or_lt with rfl | hpos
  · rw [hd.eq_zero]
    exact he.nonneg hle
  have hpos' := hpos.trans_le hle
  have hten : (1 : ℚ) ≤ 10 := by norm_num
  have hlog : Int.log 10 |q| ≤ Int.log 10 |r| := by
    rw [abs_of_pos hpos, abs_of_pos hpos']
    exact Int.log_mono_right hpos hle
  have hplaces : lastPlace digits q ≤ lastPlace digits r := Int.sub_le_sub_right hlog _
  obtain ⟨m, hm, hvalue, -, hhigh⟩ := hd.exists_coefficient hdigits hpos.ne'
  obtain ⟨n, hn, hvalue', hlow, -⟩ := he.exists_coefficient hdigits hpos'.ne'
  rw [abs_of_pos hpos] at hm
  rw [abs_of_pos hpos'] at hn
  rw [abs_of_nonneg (hd.nonneg hq)] at hvalue
  rw [abs_of_nonneg (he.nonneg (hq.trans hle))] at hvalue'
  rw [hvalue, hvalue']
  rcases hplaces.eq_or_lt with hsame | hless
  · rw [← hsame] at hn ⊢
    have hunit : (0 : ℚ) < 10 ^ lastPlace digits q := zpow_pos (by norm_num) _
    have hround := hm.mono hn (div_le_div_of_nonneg_right hle hunit.le)
    exact mul_le_mul_of_nonneg_right (Nat.cast_le.2 hround) hunit.le
  · -- the power of ten above the smaller number is between the two
    calc (m : ℚ) * 10 ^ lastPlace digits q
        ≤ 10 ^ digits * 10 ^ lastPlace digits q :=
          mul_le_mul_of_nonneg_right (by exact_mod_cast hhigh) (zpow_nonneg (by norm_num) _)
      _ = 10 ^ (digits - 1) * 10 ^ (lastPlace digits q + 1) := by
          obtain ⟨digits, rfl⟩ := Nat.exists_eq_add_of_le' hdigits
          rw [zpow_add_one₀ (by norm_num), Nat.add_sub_cancel, pow_succ]
          ring
      _ ≤ 10 ^ (digits - 1) * 10 ^ lastPlace digits r :=
          mul_le_mul_of_nonneg_left (zpow_le_zpow_right₀ hten hless) (by positivity)
      _ ≤ n * 10 ^ lastPlace digits r :=
          mul_le_mul_of_nonneg_right (by exact_mod_cast hlow) (zpow_nonneg (by norm_num) _)

/-- The roundings of two numbers are in the order of the numbers. -/
theorem mono (hd : Significant digits q d) (he : Significant digits r e) (hdigits : 0 < digits)
    (hle : q ≤ r) : d ≤ e := by
  rcases le_total 0 q with hq | hq
  · exact hd.mono_of_nonneg he hdigits hq hle
  have hdneg : d ≤ 0 := neg_nonneg.1 (hd.neg.nonneg (neg_nonneg.2 hq))
  rcases le_total 0 r with hr | hr
  · exact hdneg.trans (he.nonneg hr)
  · exact neg_le_neg_iff.1
      (he.neg.mono_of_nonneg hd.neg hdigits (neg_nonneg.2 hr) (neg_le_neg hle))

/-- A whole number of units of its last place is its own rounding. -/
theorem of_multiple {n : Nat} (h : q = n * 10 ^ lastPlace digits q) : Significant digits q q := by
  have hunit : (0 : ℚ) < 10 ^ lastPlace digits q := zpow_pos (by norm_num) _
  have hq : 0 ≤ q := h ▸ mul_nonneg (Nat.cast_nonneg n) hunit.le
  refine ⟨n, ?_, ?_⟩
  · rw [abs_of_nonneg hq, (div_eq_iff hunit.ne').2 h]
    exact .natCast n
  · rw [decide_eq_false (not_lt.2 hq), signed_false]
    exact h

/-- A whole number with no more digits than that is not rounded. -/
theorem natCast (hdigits : 0 < digits) {m : Nat} (h : m ≤ 10 ^ digits) :
    Significant digits (m : ℚ) m := by
  rcases Nat.eq_zero_or_pos m with rfl | hpos
  · exact of_multiple (n := 0) (by rw [Nat.cast_zero, zero_mul])
  have habs : |(m : ℚ)| = m := abs_of_nonneg (Nat.cast_nonneg m)
  have hlast : lastPlace digits (m : ℚ) = Nat.log 10 m - (digits - 1 : Nat) := by
    rw [lastPlace, habs, Int.log_natCast]
  rcases h.eq_or_lt with rfl | hlt
  · -- the power of ten has one digit more, which is a zero
    have hone : lastPlace digits ((10 ^ digits : Nat) : ℚ) = 1 := by
      rw [hlast, Nat.log_pow (by decide)]
      omega
    refine of_multiple (n := 10 ^ (digits - 1)) ?_
    rw [hone, zpow_one]
    exact_mod_cast (pow_sub_one_mul hdigits.ne' 10).symm
  · have hlog : Nat.log 10 m < digits := Nat.log_lt_of_lt_pow hpos.ne' hlt
    obtain ⟨places, hplaces⟩ :=
      Int.eq_ofNat_of_zero_le (by omega : 0 ≤ -lastPlace digits (m : ℚ))
    refine of_multiple (n := m * 10 ^ places) ?_
    rw [show lastPlace digits (m : ℚ) = -places by omega, zpow_neg, zpow_natCast]
    push_cast
    rw [mul_assoc, mul_inv_cancel₀ (by positivity), mul_one]

/-- A whole number with no more digits is its own rounding. -/
theorem intCast (hdigits : 0 < digits) {z : Int} (h : |z| ≤ 10 ^ digits) :
    Significant digits (z : ℚ) z := by
  obtain ⟨n, rfl | rfl⟩ := Int.eq_nat_or_neg z
  · rw [Nat.abs_cast] at h
    exact natCast hdigits (by exact_mod_cast h)
  · rw [abs_neg, Nat.abs_cast] at h
    rw [Int.cast_neg]
    exact (natCast hdigits (by exact_mod_cast h)).neg

end Significant

end Reckon
