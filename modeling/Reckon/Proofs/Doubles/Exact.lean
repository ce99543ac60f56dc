import Reckon.Proofs.Doubles.Unpacked

/-!
# Operations on doubles that are exact

A difference is exact if some double is the difference (`exactValue_sub`), the opposite and the
absolute value are exact, and doubles are ordered by their values (`le_iff_exactValue_le`). The
nearest whole number of a double is a double (`exactValue_nearestWhole`), and so is the distance
from it (`exactValue_sub_nearestWhole`).
-/

namespace Reckon

open Float.Model
open Float.Model.UnpackedFloat (Sign)

/-! ## Operations on doubles -/

section
variable {x y v : Float} {u : UnpackedFloat} {z w : Int}

/-- What a double is packed from is what it is. -/
theorem Counts.value (h : Counts u z) (hrange : z.natAbs < Binary64.overflow)
    (hx : x.toModel = Float.Model.pack u) : x.isFinite ∧ exactValue x = z / Binary64.one := by
  have hback := h.pack hrange
  rw [← hx] at hback
  exact ⟨hback.isFinite, hback.exactValue_eq⟩

/-- The opposite of a double is exact. -/
theorem exactValue_neg (hx : x.isFinite) : (-x).isFinite ∧ exactValue (-x) = -exactValue x := by
  obtain ⟨z, hz⟩ := exists_counts hx
  rw [hz.exactValue_eq, ← neg_div, ← Int.cast_neg]
  exact hz.neg.value (by rw [Int.natAbs_neg]; exact hz.natAbs_lt) rfl

/-- The absolute value of a double is exact. -/
theorem exactValue_abs (hx : x.isFinite) : x.abs.isFinite ∧ exactValue x.abs = |exactValue x| := by
  obtain ⟨z, hz⟩ := exists_counts hx
  have hone : (0 : ℚ) < Binary64.one := Nat.cast_pos.2 Binary64.one_pos
  rw [hz.exactValue_eq, abs_div, abs_of_pos hone, ← Int.cast_abs]
  exact hz.abs.value (by rw [Int.natAbs_abs]; exact hz.natAbs_lt) rfl

/-- A difference is exact if some double is the difference. -/
theorem exactValue_sub (hx : x.isFinite) (hy : y.isFinite) (hv : v.isFinite)
    (h : exactValue v = exactValue x - exactValue y) :
    (x - y).isFinite ∧ exactValue (x - y) = exactValue x - exactValue y := by
  obtain ⟨z, hz⟩ := exists_counts hx
  obtain ⟨w, hw⟩ := exists_counts hy
  obtain ⟨k, hk⟩ := exists_counts hv
  have hone : (Binary64.one : ℚ) ≠ 0 := (Nat.cast_pos.2 Binary64.one_pos).ne'
  rw [hz.exactValue_eq, hw.exactValue_eq, ← sub_div, ← Int.cast_sub] at h ⊢
  rw [hk.exactValue_eq, div_left_inj' hone, Int.cast_inj] at h
  subst h
  exact (hz.sub hw hk.holds).value hk.natAbs_lt rfl

/-- Doubles are less exactly if their values are. -/
theorem lt_iff_exactValue_lt (hx : x.isFinite) (hy : y.isFinite) :
    x < y ↔ exactValue x < exactValue y := by
  obtain ⟨z, hz⟩ := exists_counts hx
  obtain ⟨w, hw⟩ := exists_counts hy
  have hone : (0 : ℚ) < Binary64.one := Nat.cast_pos.2 Binary64.one_pos
  have hlt : x < y ↔ x.toModel.unpack.lt y.toModel.unpack = true := by
    show decide (x.toModel < y.toModel) = true ↔ _
    rw [decide_eq_true_iff]
    rfl
  rw [hlt, hz.lt_iff hw, hz.exactValue_eq, hw.exactValue_eq, div_lt_div_iff_of_pos_right hone,
    Int.cast_lt]

/-- Doubles are ordered by their values. -/
theorem le_iff_exactValue_le (hx : x.isFinite) (hy : y.isFinite) :
    x ≤ y ↔ exactValue x ≤ exactValue y := by
  obtain ⟨z, hz⟩ := exists_counts hx
  obtain ⟨w, hw⟩ := exists_counts hy
  have hone : (0 : ℚ) < Binary64.one := Nat.cast_pos.2 Binary64.one_pos
  have hle : x ≤ y ↔ x.toModel.unpack.le y.toModel.unpack = true := by
    show decide (x.toModel ≤ y.toModel) = true ↔ _
    rw [decide_eq_true_iff]
    rfl
  rw [hle, hz.le_iff hw, hz.exactValue_eq, hw.exactValue_eq, div_le_div_iff_of_pos_right hone,
    Int.cast_le]

/-- The opposite of a double is read with the other sign. -/
theorem ofFloat_neg {negative : Bool} {units : Nat}
    (h : Binary64.ofFloat x = .finite negative units) :
    Binary64.ofFloat (-x) = .finite (!negative) units := by
  have hread : InUnits x.toModel.unpack (.finite negative units) := h ▸ inUnits_ofFloat x
  exact ofFloat_eq_of_inUnits (hread.neg.pack (units_lt h))

/-- The fields of a mantissa and the places behind it, as one number. -/
theorem Canonical.fields {m p : Nat} (h : Canonical m p) (hp : p < 2046) (sign : Sign) :
    ofFields sign ((p * 2 ^ 52 + m) / 2 ^ 52 % 2 ^ 11) ((p * 2 ^ 52 + m) % 2 ^ 52) =
      .finite (isNegative sign) (m * 2 ^ p) := by
  have hlt := h.lt
  by_cases hnormal : 2 ^ 52 ≤ m
  · have hexponent : (p * 2 ^ 52 + m) / 2 ^ 52 % 2 ^ 11 = p + 1 := by omega
    have hfraction : (p * 2 ^ 52 + m) % 2 ^ 52 = m - 2 ^ 52 := by omega
    rw [hexponent, hfraction, ofFields_normal hnormal hp]
  · obtain rfl := h.places_eq_zero (Nat.lt_of_not_le hnormal)
    have hexponent : (0 * 2 ^ 52 + m) / 2 ^ 52 % 2 ^ 11 = 0 := by omega
    have hfraction : (0 * 2 ^ 52 + m) % 2 ^ 52 = m := by omega
    rw [hexponent, hfraction, pow_zero, mul_one]
    rfl

/-- The double of a count of units is read as that count. -/
theorem ofFloat_positive {units : Nat} (h : Holds units) (hrange : units < Binary64.overflow) :
    Binary64.ofFloat (Binary64.positive units) = .finite false units := by
  have hread (word : Nat) (hword : word < 2 ^ 63)
      (hfields : ∀ sign, ofFields sign (word / 2 ^ 52 % 2 ^ 11) (word % 2 ^ 52) =
        .finite (isNegative sign) units) :
      Binary64.ofFloat (Float.ofBits (UInt64.ofNat word)) = .finite false units := by
    have hbits : (UInt64.ofNat word).toBitVec.toNat = word := by
      show word % 2 ^ 64 = word
      omega
    have hword := inUnits_unpack (UInt64.ofNat word).toBitVec
    rw [toNat_unpackExponent, toNat_unpackMantissa, hbits, hfields, isNegative_unpackSign, hbits,
      decide_eq_false (by omega)] at hword
    exact ofFloat_eq_of_inUnits (hword.pack hrange)
  unfold Binary64.positive
  rcases Nat.eq_zero_or_pos units with rfl | hpos
  · exact hread 0 (by decide) fun _ => rfl
  · obtain ⟨k, t, hcanonical, rfl⟩ := h.exists_canonical hpos
    have ht : 52 + t < 2098 := hcanonical.places_lt hrange (by decide)
    have hlt := hcanonical.lt
    dsimp only
    rw [hcanonical.spacing_eq, twoPow_eq, twoPow_eq, Nat.mul_div_cancel _ (Nat.two_pow_pos t)]
    exact hread _ (by omega) (hcanonical.fields (by omega))

/-- The double of a count of units. -/
theorem exactValue_positive {units : Nat} (h : Holds units) (hrange : units < Binary64.overflow) :
    (Binary64.positive units).isFinite ∧
      exactValue (Binary64.positive units) = units / Binary64.one :=
  ⟨(counts_of_ofFloat (ofFloat_positive h hrange)).isFinite,
    exactValue_eq (ofFloat_positive h hrange)⟩

/-- A count of units with a sign is a double if it is in range and has no digits too many. -/
theorem exists_exactValue_eq (h : Holds z.natAbs) (hrange : z.natAbs < Binary64.overflow) :
    ∃ x : Float, x.isFinite ∧ exactValue x = z / Binary64.one := by
  obtain ⟨n, rfl | rfl⟩ := Int.eq_nat_or_neg z
  · exact ⟨_, exactValue_positive h hrange⟩
  · rw [Int.natAbs_neg] at h hrange
    obtain ⟨hfinite, hvalue⟩ := exactValue_positive h hrange
    refine ⟨_, (exactValue_neg hfinite).1, ?_⟩
    rw [(exactValue_neg hfinite).2, hvalue, Int.cast_neg, neg_div]
    rfl

end

/-! ## Whole doubles -/

/-- What the denominator divides is not rounded. -/
theorem roundHalfUp_mul_of_dvd {num den : Nat} (hden : 0 < den) (h : den ∣ num) :
    roundHalfUp num den * den = num := by
  obtain ⟨k, rfl⟩ := h
  rw [roundHalfUp, show 2 * (den * k) + den = den + 2 * den * k by ring,
    Nat.add_mul_div_left _ _ (by omega), Nat.div_eq_of_lt (by omega), Nat.zero_add, mul_comm]

/-- Rounding half up no more than doubles a number. -/
theorem roundHalfUp_mul_le (num den : Nat) : roundHalfUp num den * den ≤ 2 * num := by
  have hle : roundHalfUp num den * (2 * den) ≤ 2 * num + den := Nat.div_mul_le_self _ _
  rcases Nat.eq_zero_or_pos (roundHalfUp num den) with hzero | hpos
  · rw [hzero, Nat.zero_mul]
    exact Nat.zero_le _
  · have hden := Nat.le_mul_of_pos_left den hpos
    rw [mul_left_comm] at hle
    omega

section
variable {units den r : Nat}

/-- A count of units is whole, or its mantissa ends below the point. -/
theorem Holds.dvd_or_lt (h : Holds units) (hden : den = 2 ^ r) :
    den ∣ units ∨ ∃ m p, m < 2 ^ 53 ∧ p < r ∧ units = m * 2 ^ p := by
  obtain ⟨m, p, hm, rfl⟩ := h
  by_cases hp : r ≤ p
  · exact .inl (hden ▸ Dvd.dvd.mul_left (pow_dvd_pow 2 hp) m)
  · exact .inr ⟨m, p, hm, Nat.lt_of_not_le hp, rfl⟩

/-- The whole number next to a count of units is the count, or has no more bits than a mantissa. -/
theorem Holds.whole_cases (h : Holds units) (hden : den = 2 ^ r) :
    roundHalfUp units den * den = units ∨ roundHalfUp units den < 2 ^ 53 := by
  have hpos : 0 < den := hden ▸ Nat.two_pow_pos r
  rcases h.dvd_or_lt hden with hdvd | ⟨m, p, hm, hp, rfl⟩
  · exact .inl (roundHalfUp_mul_of_dvd hpos hdvd)
  · have hlt : m * 2 ^ p < 2 ^ 52 * den := by
      calc m * 2 ^ p < 2 ^ 53 * 2 ^ p := Nat.mul_lt_mul_of_pos_right hm (Nat.two_pow_pos p)
        _ = 2 ^ 52 * 2 ^ (p + 1) := by ring
        _ ≤ 2 ^ 52 * den := Nat.mul_le_mul_left _ (hden ▸ Nat.pow_le_pow_right two_pos hp)
    right
    rw [roundHalfUp, Nat.div_lt_iff_lt_mul (Nat.mul_pos two_pos hpos)]
    omega

/-- A count of units that is rounded to a whole number is one that a double holds. -/
theorem Holds.whole (h : Holds units) (hden : den = 2 ^ r) :
    Holds (roundHalfUp units den * den) := by
  rcases h.whole_cases hden with hsame | hsmall
  · rwa [hsame]
  · exact ⟨_, r, hsmall, by rw [hden]⟩

/-- The whole number next to a count of units is in range if the count is. -/
theorem Holds.whole_lt (h : Holds units) (hden : den = 2 ^ r) {bound : Nat}
    (hbound : 2 ^ 53 * den ≤ bound) (hrange : units < bound) :
    roundHalfUp units den * den < bound := by
  have hpos : 0 < den := hden ▸ Nat.two_pow_pos r
  rcases h.whole_cases hden with hsame | hsmall
  · rwa [hsame]
  · exact (Nat.mul_lt_mul_of_pos_right hsmall hpos).trans_le hbound

/-- What the rounding takes away is a count of units that a double holds. -/
theorem Holds.fraction (h : Holds units) (hden : den = 2 ^ r) :
    Holds (units - (roundHalfUp units den * den : Nat) : Int).natAbs := by
  have hpos : 0 < den := hden ▸ Nat.two_pow_pos r
  rcases h.dvd_or_lt hden with hdvd | ⟨m, p, hm, hp, hunits⟩
  · rw [roundHalfUp_mul_of_dvd hpos hdvd, sub_self]
    exact ⟨0, 0, by decide, rfl⟩
  · have hle := roundHalfUp_mul_le units den
    obtain ⟨k, hk⟩ : 2 ^ p ∣ roundHalfUp units den * den :=
      Dvd.dvd.mul_left (hden ▸ pow_dvd_pow 2 hp.le) _
    rw [hk, hunits, mul_comm m, mul_left_comm] at hle
    have hkm : k ≤ 2 * m := Nat.le_of_mul_le_mul_left hle (Nat.two_pow_pos p)
    have hrest : ((units : Int) - (roundHalfUp units den * den : Nat)) = (m - k) * 2 ^ p := by
      rw [hk, hunits]
      push_cast
      ring
    refine ⟨((m : Int) - k).natAbs, p, by omega, ?_⟩
    rw [hrest, Int.natAbs_mul, Int.natAbs_pow]
    rfl

end

/-- One has as many units as the exponent of the least double says. -/
theorem Binary64.one_eq : one = 2 ^ 1074 := twoPow_eq 1074

/-- The doubles reach beyond the whole numbers that are a mantissa. -/
theorem Binary64.mul_one_le : 2 ^ 53 * one ≤ overflow := by
  rw [overflow_eq, mul_comm]
  exact Nat.mul_le_mul_left one (twoPow_le (by decide))

/-- A sign stays in front of a whole number that is taken for a rational one. -/
theorem cast_signed (negative : Bool) (z : Int) :
    ((signed negative z : Int) : ℚ) = signed negative (z : ℚ) := by
  cases negative
  · rfl
  · exact Int.cast_neg z

/-- The sign of a quotient is that of the number divided. -/
theorem signed_div (negative : Bool) (q r : ℚ) :
    signed negative q / r = signed negative (q / r) := by
  cases negative
  · rfl
  · exact neg_div r q

/-- A common sign is taken out of a difference. -/
theorem signed_sub (negative : Bool) (q r : ℚ) :
    signed negative (q - r) = signed negative q - signed negative r := by
  cases negative
  · rfl
  · exact neg_sub' q r

/-- Rounding a number of units, half of one away from zero, is rounding the count half up. -/
theorem roundAway_units (negative : Bool) (units : Nat) :
    roundAway (signed negative (units / Binary64.one : ℚ)) =
      signed negative (roundHalfUp units Binary64.one : Int) := by
  rw [roundAway_signed, roundAway_of_nonneg (by positivity),
    roundHalfUp_eq_round units Binary64.one_pos]

section
variable {x : Float}

/-- A finite double is a count of units that a double holds, in range. -/
theorem exists_holds (hx : x.isFinite) : ∃ negative units,
    Binary64.ofFloat x = .finite negative units ∧ Holds units ∧ units < Binary64.overflow := by
  obtain ⟨negative, units, hunits⟩ := exists_ofFloat_eq hx
  have hholds := (counts_of_ofFloat hunits).holds
  rw [natAbs_signed, Int.natAbs_natCast] at hholds
  exact ⟨negative, units, hunits, hholds, units_lt hunits⟩

/-- Rounding to a whole double is exact. -/
theorem exactValue_nearestWhole (hx : x.isFinite) :
    (Binary64.nearestWhole x).isFinite ∧
      exactValue (Binary64.nearestWhole x) = roundAway (exactValue x) := by
  obtain ⟨negative, units, hunits, hholds, hrange⟩ := exists_holds hx
  have hone : (Binary64.one : ℚ) ≠ 0 := (Nat.cast_pos.2 Binary64.one_pos).ne'
  have hheld := hholds.whole Binary64.one_eq
  obtain ⟨hfinite, hvalue⟩ := exactValue_positive hheld
    (hholds.whole_lt Binary64.one_eq Binary64.mul_one_le hrange)
  rw [Nat.cast_mul, mul_div_cancel_right₀ _ hone] at hvalue
  rw [exactValue_eq hunits, roundAway_units, cast_signed, Int.cast_natCast, ← hvalue,
    Binary64.nearestWhole, hunits]
  dsimp only
  generalize Binary64.positive _ = whole at hfinite ⊢
  cases negative with
  | false =>
    rw [if_neg Bool.false_ne_true, signed_false]
    exact ⟨hfinite, rfl⟩
  | true =>
    rw [if_pos rfl, signed_true]
    exact exactValue_neg hfinite

/-- The distance from the nearest whole double is not rounded. -/
theorem exactValue_sub_nearestWhole (hx : x.isFinite) :
    (x - Binary64.nearestWhole x).isFinite ∧
      exactValue (x - Binary64.nearestWhole x) = exactValue x - roundAway (exactValue x) := by
  obtain ⟨hfinite, hwhole⟩ := exactValue_nearestWhole hx
  obtain ⟨negative, units, hunits, hholds, hrange⟩ := exists_holds hx
  have hone : (Binary64.one : ℚ) ≠ 0 := (Nat.cast_pos.2 Binary64.one_pos).ne'
  have hheld := hholds.fraction Binary64.one_eq
  have hle := roundHalfUp_mul_le units Binary64.one
  generalize hproduct : roundHalfUp units Binary64.one * Binary64.one = product at hheld hle
  obtain ⟨v, hv, hdifference⟩ := @exists_exactValue_eq (signed negative (units - product : Int))
    (by rwa [natAbs_signed]) (by rw [natAbs_signed]; omega)
  rw [← hwhole]
  refine exactValue_sub hx hfinite hv ?_
  rw [hdifference, hwhole, exactValue_eq hunits, roundAway_units, cast_signed, cast_signed,
    signed_div, ← signed_sub, ← hproduct]
  rw [Int.cast_sub, Int.cast_natCast, Int.cast_natCast, Nat.cast_mul, sub_div,
    mul_div_cancel_right₀ _ hone, Int.cast_natCast]

end

end Reckon
