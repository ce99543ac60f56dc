import Mathlib.Algebra.Order.Round
import Mathlib.Data.Int.Log
import Mathlib.Data.Rat.Floor
import Mathlib.Tactic.FieldSimp
import Mathlib.Tactic.Linarith
import Mathlib.Tactic.Positivity
import Mathlib.Tactic.Ring
import Reckon.Number.Decimal

/-!
# Rounding is exact

What the rounding of ratios comes to as a statement about rational numbers. `NearestEven` is the
nearest whole number, ties to even, `roundAway` the one with ties away from zero, and `Significant`
the nearest decimal number with a given count of digits. `roundHalfUp` and `roundHalfEven` are the
roundings that they are named after, `leadingExponent` is the decimal logarithm, and
`Decimal.ofRatio` rounds to significant digits, also where that carries into the next power of ten
(`Decimal.ofRatio_spec`).
-/

namespace Reckon

/-! ## Powers -/

theorem tenPow_eq (n : Nat) : tenPow n = 10 ^ n := rfl

theorem twoPow_eq (n : Nat) : twoPow n = 2 ^ n := rfl

theorem twoPow_add (m n : Nat) : twoPow (m + n) = twoPow m * twoPow n := pow_add 2 m n

theorem cast_twoPow (n : Nat) : (twoPow n : ℚ) = 2 ^ n := by
  rw [twoPow_eq, Nat.cast_pow, Nat.cast_ofNat]

theorem twoPow_le {m n : Nat} (h : m ≤ n) : twoPow m ≤ twoPow n := Nat.pow_le_pow_right two_pos h

theorem tenPow_pos (n : Nat) : 0 < tenPow n := Nat.pow_pos (by decide)

theorem twoPow_pos (n : Nat) : 0 < twoPow n := Nat.pow_pos (by decide)

/-- One is a positive count of units. -/
theorem Binary64.one_pos : 0 < one := twoPow_pos 1074

/-- The finite doubles end at `2 ^ 1024`. -/
theorem Binary64.overflow_eq : overflow = one * twoPow 1024 := by
  rw [overflow, one, ← twoPow_add]

/-- A power of ten with the part above the line and the part below it. -/
theorem zpow_ten_eq (k : Int) : (10 : ℚ) ^ k = tenPow k.toNat / tenPow (-k).toNat := by
  simp only [tenPow_eq, Nat.cast_pow, Nat.cast_ofNat]
  rcases le_total 0 k with hk | hk
  · obtain ⟨n, rfl⟩ := Int.eq_ofNat_of_zero_le hk
    simp
  · obtain ⟨n, hn⟩ := Int.eq_ofNat_of_zero_le (Int.neg_nonneg.2 hk)
    obtain rfl : k = -(n : Int) := by omega
    simp

/-! ## Signs -/

/-- A value with a sign. -/
def signed {α : Type} [Neg α] (negative : Bool) (a : α) : α :=
  if negative then -a else a

@[simp] theorem signed_false {α : Type} [Neg α] (a : α) : signed false a = a := rfl

@[simp] theorem signed_true {α : Type} [Neg α] (a : α) : signed true a = -a := rfl

/-- A sign changes no absolute value. -/
@[simp] theorem abs_signed (negative : Bool) (q : ℚ) : |signed negative q| = |q| := by
  cases negative
  · rfl
  · exact abs_neg q

/-- A positive number with a sign is negative if the sign is a minus. -/
theorem signed_lt_zero {q : ℚ} (h : 0 < q) (negative : Bool) :
    signed negative q < 0 ↔ negative = true := by
  cases negative
  · simpa [signed] using h.le
  · simpa [signed] using h

/-! ## Whole numbers -/

/-- The whole number nearest to `q`; of two equally near ones the even one. -/
structure NearestEven (q : ℚ) (n : Nat) : Prop where
  near : |q - n| ≤ 1 / 2
  even : |q - n| = 1 / 2 → Even n

/-- Whole numbers at half the distance of one are next to each other, and only one is even. -/
theorem NearestEven.unique {q : ℚ} {m n : Nat} (hm : NearestEven q m) (hn : NearestEven q n) :
    m = n := by
  by_contra hne
  wlog hlt : m < n generalizing m n
  · exact this hn hm (Ne.symm hne) (lt_of_le_of_ne (not_lt.1 hlt) (Ne.symm hne))
  have hstep : (m : ℚ) + 1 ≤ n := by exact_mod_cast hlt
  obtain ⟨-, hhigh⟩ := abs_le.1 hm.near
  obtain ⟨hlow, -⟩ := abs_le.1 hn.near
  have hq : q = m + 1 / 2 := by linarith
  have hnext : (n : ℚ) = m + 1 := by linarith
  have hevenm : Even m := hm.even (by rw [hq]; norm_num)
  have hevenn : Even n := hn.even (by rw [hq, hnext]; norm_num)
  have hsucc : n = m + 1 := by exact_mod_cast hnext
  rw [Nat.even_iff] at hevenm hevenn
  omega

/-- Rounding does not pass a whole number. -/
theorem NearestEven.le_of_natCast_le {q : ℚ} {m n : Nat} (h : NearestEven q n) (hm : (m : ℚ) ≤ q) :
    m ≤ n := by
  obtain ⟨-, hhigh⟩ := abs_le.1 h.near
  have hlt : (m : ℚ) < (n + 1 : Nat) := by
    push_cast
    linarith
  exact Nat.lt_succ_iff.1 (Nat.cast_lt.1 hlt)

/-- Rounding does not go beyond a whole number from below. -/
theorem NearestEven.le_of_le_natCast {q : ℚ} {m n : Nat} (h : NearestEven q n) (hm : q ≤ m) :
    n ≤ m := by
  obtain ⟨hlow, -⟩ := abs_le.1 h.near
  have hlt : (n : ℚ) < (m + 1 : Nat) := by
    push_cast
    linarith
  exact Nat.lt_succ_iff.1 (Nat.cast_lt.1 hlt)

/-- Two whole numbers are at least one apart. -/
theorem one_le_dist {q : ℚ} {m n : Nat} (h : m ≠ n) : 1 ≤ |q - m| + |q - n| := by
  have hone : (1 : ℚ) ≤ |(m : ℚ) - n| := by
    have hint : (1 : Int) ≤ |(m : Int) - n| := Int.one_le_abs (by omega)
    exact_mod_cast hint
  calc (1 : ℚ) ≤ |(m : ℚ) - n| := hone
    _ ≤ |(m : ℚ) - q| + |q - n| := abs_sub_le _ _ _
    _ = |q - m| + |q - n| := by rw [abs_sub_comm]

/-- No whole number is nearer. -/
theorem NearestEven.le_dist {q : ℚ} {n : Nat} (h : NearestEven q n) (k : Nat) :
    |q - n| ≤ |q - k| := by
  by_cases hk : k = n
  · rw [hk]
  · have hone := @one_le_dist q _ _ hk
    have hnear := h.near
    linarith

/-- Where another whole number is as near, the number is even. -/
theorem NearestEven.even_of_tie {q : ℚ} {k n : Nat} (h : NearestEven q n) (hk : k ≠ n)
    (htie : |q - k| = |q - n|) : Even n := by
  have hone := @one_le_dist q _ _ hk
  have hnear := h.near
  exact h.even (by linarith)

/-- Just below an even whole number the last half goes up to it. -/
theorem NearestEven.lt_iff {q : ℚ} {m n : Nat} (h : NearestEven q n) (hm : Even m) :
    n < m ↔ q < m - 1 / 2 := by
  obtain ⟨hlow, hhigh⟩ := abs_le.1 h.near
  constructor
  · intro hn
    have hstep : (n : ℚ) + 1 ≤ m := by exact_mod_cast hn
    by_contra hq
    have htie : q = n + 1 / 2 := by linarith
    have hlast : (m : ℚ) = n + 1 := by linarith
    have heven : Even n := h.even (by rw [htie]; norm_num)
    have hsucc : m = n + 1 := by exact_mod_cast hlast
    rw [Nat.even_iff] at hm heven
    omega
  · intro hq
    have hlt : (n : ℚ) < m := by linarith
    exact Nat.cast_lt.1 hlt

/-- A fraction below one half is dropped, and one half behind an even number. -/
theorem NearestEven.floor {n : Nat} {f : ℚ} (hf : 0 ≤ f) (hhalf : f ≤ 1 / 2)
    (heven : f = 1 / 2 → Even n) : NearestEven (n + f) n := by
  have habs : |(n + f : ℚ) - n| = f := by rw [add_sub_cancel_left, abs_of_nonneg hf]
  exact ⟨habs.trans_le hhalf, fun h => heven (habs.symm.trans h)⟩

/-- A fraction above one half is rounded up, and one half in front of an even number. -/
theorem NearestEven.ceil {n : Nat} {f : ℚ} (hf : f < 1) (hhalf : 1 / 2 ≤ f)
    (heven : f = 1 / 2 → Even (n + 1)) : NearestEven (n + f) (n + 1) := by
  have habs : |(n + f : ℚ) - (n + 1 : Nat)| = 1 - f := by
    rw [Nat.cast_succ, add_sub_add_left_eq_sub, abs_sub_comm, abs_of_pos (sub_pos.2 hf)]
  exact ⟨by linarith, fun h => heven (by linarith)⟩

/-- A quotient is rounded to the nearest whole number, ties to the even one. -/
theorem roundHalfEven_nearest (num : Nat) {den : Nat} (hden : 0 < den) :
    NearestEven (num / den) (roundHalfEven num den) := by
  have hden' : (0 : ℚ) < den := Nat.cast_pos.2 hden
  have hratio : (num : ℚ) / den = (num / den : Nat) + (num % den : Nat) / den := by
    rw [div_eq_iff hden'.ne', add_mul, div_mul_cancel₀ _ hden'.ne']
    exact_mod_cast (Nat.div_add_mod' num den).symm
  have hless : num % den < den := Nat.mod_lt num hden
  rw [hratio, roundHalfEven]
  generalize num / den = quotient
  generalize num % den = remainder at hless ⊢
  have hfraction : (0 : ℚ) ≤ remainder / den := by positivity
  have hone : (remainder : ℚ) / den < 1 := (div_lt_one hden').2 (Nat.cast_lt.2 hless)
  have hhalf : (remainder : ℚ) / den = 1 / 2 ↔ 2 * remainder = den := by
    rw [div_eq_div_iff hden'.ne' two_ne_zero]
    norm_cast
    omega
  have hbelow : (remainder : ℚ) / den < 1 / 2 ↔ 2 * remainder < den := by
    rw [div_lt_div_iff₀ hden' two_pos]
    norm_cast
    omega
  split
  · next hlow =>
    exact .floor hfraction (hbelow.2 hlow).le fun h => absurd (hhalf.1 h) (by omega)
  · next hlow =>
    have hhigh := not_lt.1 (mt hbelow.1 hlow)
    split
    · exact .ceil hone hhigh fun h => absurd (hhalf.1 h) (by omega)
    · have htie : 2 * remainder = den := by omega
      split
      · next heven => exact .floor hfraction (hhalf.2 htie).le fun _ => Nat.even_iff.2 heven
      · next hodd => exact .ceil hone hhigh fun _ => Nat.even_iff.2 (by omega)

/-- Rounding a quotient half up is rounding it to the nearest whole number, ties to the greater one.
-/
theorem roundHalfUp_eq_round (num : Nat) {den : Nat} (hden : 0 < den) :
    (roundHalfUp num den : Int) = round ((num : ℚ) / den) := by
  have hden' : (0 : ℚ) < den := Nat.cast_pos.2 hden
  rw [round_eq, show (num : ℚ) / den + 1 / 2 = ((2 * num + den : Nat) : ℚ) / (2 * den : Nat) by
    push_cast
    field_simp, Rat.floor_natCast_div_natCast]
  rfl

/-- The nearest whole number; of two equally near ones the one away from zero. -/
def roundAway (q : ℚ) : Int :=
  if q < 0 then -round (-q) else round q

/-- Rounding away from zero is the same on both sides of it. -/
theorem roundAway_neg (q : ℚ) : roundAway (-q) = -roundAway q := by
  unfold roundAway
  rcases lt_trichotomy q 0 with h | rfl | h
  · rw [if_neg (by linarith), if_pos h, neg_neg]
  · simp
  · rw [if_pos (by linarith), if_neg (by linarith), neg_neg]

/-- A sign is kept when rounding away from zero. -/
theorem roundAway_signed (negative : Bool) (q : ℚ) :
    roundAway (signed negative q) = signed negative (roundAway q) := by
  cases negative
  · rfl
  · exact roundAway_neg q

/-- From zero on, rounding away from zero is rounding up. -/
theorem roundAway_of_nonneg {q : ℚ} (h : 0 ≤ q) : roundAway q = round q :=
  if_neg (not_lt.2 h)

/-- `roundAway` is what it is named after. -/
theorem roundAway_nearest (q : ℚ) :
    |q - roundAway q| ≤ 1 / 2 ∧ (|q - roundAway q| = 1 / 2 → |q| < |(roundAway q : ℚ)|) := by
  wlog hq : 0 ≤ q generalizing q
  · have := this (-q) (by linarith)
    rwa [roundAway_neg, Int.cast_neg, ← neg_sub', abs_neg, abs_neg, abs_neg] at this
  rw [roundAway_of_nonneg hq]
  refine ⟨abs_sub_round q, fun htie => ?_⟩
  have hlow := sub_half_lt_round q
  have hup : q < round q := by
    by_contra hle
    rw [abs_of_nonneg (by linarith)] at htie
    linarith
  rw [abs_of_nonneg hq]
  exact hup.trans_le (le_abs_self _)

/-! ## Logarithms -/

/-- `tenLog` is the logarithm to base ten. -/
theorem tenLog_eq (n : Nat) : tenLog n = Nat.log 10 n := by
  fun_induction tenLog n with
  | case1 n h => exact (Nat.log_of_lt h).symm
  | case2 n h ih => rw [ih, Nat.log_of_one_lt_of_le (by decide) (Nat.le_of_not_lt h)]

/-- A logarithm is known from the powers around a number. -/
theorem log_eq_of_bounds {q : ℚ} {e : Int} (hle : 10 ^ e ≤ q) (hlt : q < 10 ^ (e + 1)) :
    Int.log 10 q = e := by
  have hq : 0 < q := lt_of_lt_of_le (zpow_pos (by norm_num) e) hle
  have hlow := (Int.zpow_le_iff_le_log (b := 10) (by decide) hq).1 (by exact_mod_cast hle)
  have hhigh := (Int.lt_zpow_iff_log_lt (b := 10) (by decide) hq).1 (by exact_mod_cast hlt)
  omega

/-- The exponent of the first digit of a quotient is its logarithm. -/
theorem leadingExponent_eq {num den : Nat} (hnum : 0 < num) (hden : 0 < den) :
    leadingExponent num den = Int.log 10 ((num : ℚ) / den) := by
  have hden' : (0 : ℚ) < den := Nat.cast_pos.2 hden
  unfold leadingExponent
  split
  · next hle =>
    have hone : (1 : ℚ) ≤ num / den := (one_le_div hden').2 (Nat.cast_le.2 hle)
    rw [Int.log_of_one_le_right _ hone, Rat.natFloor_natCast_div_natCast, tenLog_eq]
  · next hlt =>
    have hlt : num < den := Nat.lt_of_not_le hlt
    -- below one, `⌈den / num⌉ - 1` is `(den - 1) / num`
    have hceil : (den + num - 1) / num - 1 = (den - 1) / num := by
      rw [show den + num - 1 = den - 1 + num by omega, Nat.add_div_right _ hnum]
      rfl
    have hdigits : (den - 1) / num ≠ 0 := (Nat.div_pos (by omega) hnum).ne'
    have hlow : 10 ^ Nat.log 10 ((den - 1) / num) * num ≤ den - 1 :=
      (Nat.le_div_iff_mul_le hnum).1 (Nat.pow_log_le_self 10 hdigits)
    have hhigh : den - 1 < 10 ^ (Nat.log 10 ((den - 1) / num) + 1) * num :=
      (Nat.div_lt_iff_lt_mul hnum).1 (Nat.lt_pow_succ_log_self (by decide) _)
    rw [hceil, tenLog_eq]
    generalize Nat.log 10 ((den - 1) / num) = k at hlow hhigh
    refine (log_eq_of_bounds ?_ ?_).symm
    · rw [zpow_neg, ← Nat.cast_succ, zpow_natCast, le_div_iff₀ hden',
        inv_mul_le_iff₀ (by positivity)]
      exact_mod_cast (by omega : den ≤ 10 ^ (k + 1) * num)
    · rw [neg_add_rev, neg_add_cancel_comm, zpow_neg, zpow_natCast, div_lt_iff₀ hden',
        lt_inv_mul_iff₀ (by positivity)]
      exact_mod_cast (by omega : 10 ^ k * num < den)

/-! ## Decimal numbers -/

/-- The number itself. -/
def Decimal.value (d : Decimal) : ℚ :=
  d.coefficient * 10 ^ d.exponent

/-- A decimal number with a coefficient is positive. -/
theorem Decimal.value_pos {d : Decimal} (h : 0 < d.coefficient) : 0 < d.value :=
  mul_pos (Nat.cast_pos.2 h) (zpow_pos (by norm_num) _)

/-- The place of the last of so many significant digits of `q`. -/
def lastPlace (digits : Nat) (q : ℚ) : Int :=
  Int.log 10 |q| - (digits - 1 : Nat)

/-- The number nearest to `q` with the given count of significant digits, which are counted from the
leading digit of `q` on; of two equally near ones the one with the even last digit. -/
def Significant (digits : Nat) (q d : ℚ) : Prop :=
  ∃ n : Nat, NearestEven (|q| / 10 ^ lastPlace digits q) n ∧
    d = signed (decide (q < 0)) (n * 10 ^ lastPlace digits q : ℚ)

/-- A number is rounded to significant digits in one way only. -/
theorem Significant.unique {digits : Nat} {q d d' : ℚ} (h : Significant digits q d)
    (h' : Significant digits q d') : d = d' := by
  obtain ⟨n, hnear, rfl⟩ := h
  obtain ⟨n', hnear', rfl⟩ := h'
  rw [hnear.unique hnear']

/-- A sign is kept when rounding to significant digits. -/
theorem Significant.signed {digits : Nat} {q d : ℚ} (h : Significant digits q d) (hq : 0 < q)
    (negative : Bool) : Significant digits (signed negative q) (signed negative d) := by
  obtain ⟨n, hnear, rfl⟩ := h
  refine ⟨n, ?_, ?_⟩
  · rwa [lastPlace, abs_signed]
  · rw [decide_eq_false hq.not_gt, lastPlace, lastPlace, abs_signed]
    congr 1
    cases negative
    · exact (decide_eq_false hq.not_gt).symm
    · exact (decide_eq_true (neg_neg_of_pos hq)).symm

section
variable {digits : Nat} {q : ℚ}

/-- In units of the last place there are just so many digits in front of the point. -/
theorem scaled_bounds (hdigits : 0 < digits) (hq : 0 < q) :
    ((10 ^ (digits - 1) : Nat) : ℚ) ≤ q / 10 ^ lastPlace digits q ∧
      q / 10 ^ lastPlace digits q < (10 ^ digits : Nat) := by
  have hlow := Int.zpow_log_le_self (b := 10) (by decide) hq
  have hhigh := Int.lt_zpow_succ_log_self (b := 10) (by decide) q
  have hlast : (0 : ℚ) < 10 ^ lastPlace digits q := zpow_pos (by norm_num) _
  have hten : (10 : ℚ) ≠ 0 := by norm_num
  rw [le_div_iff₀ hlast, div_lt_iff₀ hlast]
  push_cast at hlow hhigh ⊢
  rw [← zpow_natCast, ← zpow_add₀ hten, ← zpow_natCast, ← zpow_add₀ hten, lastPlace, abs_of_pos hq]
  constructor
  · rwa [add_sub_cancel]
  · rwa [show (digits : Int) + (Int.log 10 q - (digits - 1 : Nat)) = Int.log 10 q + 1 by omega]

end

/-- The digits of the nearest number are just so many, or rounding carries. -/
theorem Significant.exists_coefficient {digits : Nat} {q d : ℚ} (h : Significant digits q d)
    (hdigits : 0 < digits) (hq : q ≠ 0) :
    ∃ n : Nat, NearestEven (|q| / 10 ^ lastPlace digits q) n ∧ |d| = n * 10 ^ lastPlace digits q ∧
      10 ^ (digits - 1) ≤ n ∧ n ≤ 10 ^ digits := by
  obtain ⟨n, hnear, rfl⟩ := h
  have hlast : lastPlace digits |q| = lastPlace digits q := by rw [lastPlace, abs_abs, lastPlace]
  obtain ⟨hlow, hhigh⟩ := scaled_bounds hdigits (abs_pos.2 hq)
  rw [hlast] at hlow hhigh
  refine ⟨n, hnear, ?_, hnear.le_of_natCast_le hlow, hnear.le_of_le_natCast hhigh.le⟩
  rw [abs_signed, abs_of_nonneg (mul_nonneg (Nat.cast_nonneg n) (zpow_nonneg (by norm_num) _))]

/-- A number other than zero is not rounded to zero. -/
theorem Significant.pos {digits : Nat} {q d : ℚ} (h : Significant digits q d)
    (hdigits : 0 < digits) (hq : q ≠ 0) : 0 < |d| := by
  obtain ⟨n, -, hd, hlow, -⟩ := h.exists_coefficient hdigits hq
  rw [hd]
  exact mul_pos (Nat.cast_pos.2 ((Nat.pow_pos (by decide)).trans_le hlow))
    (zpow_pos (by norm_num) _)

namespace Decimal

variable {digits num den : Nat}

/-- Rounding that carries is also the rounding to the place above. -/
theorem nearest_of_carry {y : ℚ} (hdigits : 0 < digits) (h : NearestEven y (10 ^ digits)) :
    NearestEven (y / 10) (10 ^ (digits - 1)) := by
  obtain ⟨digits, rfl⟩ := Nat.exists_eq_add_of_le' hdigits
  have habs : |y / 10 - (10 ^ (digits + 1 - 1) : Nat)| ≤ 1 / 20 := by
    have hnear := h.near
    rw [show y / 10 - (10 ^ (digits + 1 - 1) : Nat) = (y - (10 ^ (digits + 1) : Nat)) / 10 by
      push_cast
      rw [pow_succ]
      ring, abs_div, abs_of_pos (by norm_num : (0 : ℚ) < 10)]
    linarith
  exact ⟨by linarith, fun htie => absurd htie (by linarith)⟩

/-- The digits of a ratio: there are just so many of them, they are the nearest to the ratio in
units of the last of them, and the number is the nearest with so many significant digits. The units
are larger than `lastPlace` says where rounding carries. -/
theorem ofRatio_spec (hdigits : 0 < digits) (hnum : 0 < num) (hden : 0 < den) :
    10 ^ (digits - 1) ≤ (ofRatio digits num den).coefficient ∧
      (ofRatio digits num den).coefficient < 10 ^ digits ∧
      NearestEven ((num : ℚ) / den / 10 ^ (ofRatio digits num den).exponent)
        (ofRatio digits num den).coefficient ∧
      Significant digits (num / den) (ofRatio digits num den).value := by
  have hq : (0 : ℚ) < num / den := div_pos (Nat.cast_pos.2 hnum) (Nat.cast_pos.2 hden)
  have hlast : leadingExponent num den - (digits - 1 : Nat) = lastPlace digits (num / den) := by
    rw [lastPlace, abs_of_pos hq, leadingExponent_eq hnum hden]
  obtain ⟨hlow, hhigh⟩ := scaled_bounds hdigits hq
  rw [ofRatio, hlast]
  generalize hplace : lastPlace digits ((num : ℚ) / den) = last at hlow hhigh ⊢
  have hden' := Nat.mul_pos hden (tenPow_pos last.toNat)
  have hnear := roundHalfEven_nearest (num * tenPow (-last).toNat) hden'
  have hscaled : ((num * tenPow (-last).toNat : Nat) : ℚ) / (den * tenPow last.toNat : Nat) =
      num / den / 10 ^ last := by
    rw [zpow_ten_eq, div_div_div_eq, Nat.cast_mul, Nat.cast_mul]
  rw [hscaled] at hnear
  generalize roundHalfEven _ _ = n at hnear ⊢
  have hsignificant : Significant digits ((num : ℚ) / den) (n * 10 ^ last) := by
    refine ⟨n, ?_, ?_⟩
    · rwa [abs_of_pos hq, hplace]
    · rw [decide_eq_false hq.not_gt, hplace]
      rfl
  have hle := hnear.le_of_le_natCast hhigh.le
  have hten : 10 ^ (digits - 1) < 10 ^ digits :=
    Nat.pow_lt_pow_right (by decide) (Nat.sub_lt hdigits one_pos)
  by_cases hcarry : n = tenPow digits
  · subst hcarry
    rw [if_pos rfl]
    refine ⟨le_rfl, hten, ?_, ?_⟩
    · have := nearest_of_carry hdigits hnear
      rwa [div_div, ← zpow_add_one₀ (by norm_num)] at this
    · have hvalue : value ⟨tenPow (digits - 1), last + 1⟩ = (tenPow digits : ℚ) * 10 ^ last := by
        obtain ⟨digits, rfl⟩ := Nat.exists_eq_add_of_le' hdigits
        simp only [value, tenPow_eq, Nat.cast_pow, Nat.cast_ofNat, Nat.add_sub_cancel]
        rw [zpow_add_one₀ (by norm_num), pow_succ]
        ring
      rwa [hvalue]
  · rw [if_neg hcarry]
    exact ⟨hnear.le_of_natCast_le hlow, lt_of_le_of_ne hle hcarry, hnear, hsignificant⟩

end Decimal

end Reckon
