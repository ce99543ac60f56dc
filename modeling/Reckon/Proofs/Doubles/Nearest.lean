import Reckon.Proofs.Doubles.Exact

/-!
# The double nearest to a number

`NearestDouble q x` says that `x` is the finite double nearest to `q`, ties going to the even
mantissa, and there is only one (`NearestDouble.unique`). Numbers from `overflowBound` on have none:
the infinite double is as near to them as the largest finite one, if `2 ^ 1024` is put for it.

`Rounds` is the rounding of a count of units to a mantissa with places behind it, which
`Binary64.nearest` carries out (`rounds_nearest`). No count that a double holds is nearer
(`Rounds.le_dist`), and it is in range below `overflowBound` (`Rounds.lt_overflow_iff`). So
`Decimal.double?` is the double nearest to a decimal number, of whatever size its exponent is
(`Decimal.double?_nearest`), and there is none only if the number is too large
(`Decimal.double?_eq_none`).
-/

namespace Reckon

/-- Half way from the largest finite double to `2 ^ 1024`. -/
def overflowBound : ℚ :=
  2 ^ 1024 - 2 ^ 970

/-- The double that a number is rounded to: no finite double is nearer, its mantissa is even where
another one is as near, and its sign is that of the number, which is in range. -/
structure NearestDouble (q : ℚ) (x : Float) : Prop where
  isFinite : x.isFinite
  inRange : |q| < overflowBound
  near : ∀ y : Float, y.isFinite → |q - exactValue x| ≤ |q - exactValue y|
  even : ∀ y : Float, y.isFinite → exactValue y ≠ exactValue x →
    |q - exactValue y| = |q - exactValue x| → Even x.toBits.toNat
  sign : 2 ^ 63 ≤ x.toBits.toNat ↔ q < 0

/-! ## Distances -/

/-- What is between two numbers that are as near is nearer. -/
theorem dist_lt_of_between {q a b c : ℚ} (htie : |q - b| = |q - a|)
    (h : a < c ∧ c < b ∨ b < c ∧ c < a) : |q - c| < |q - a| := by
  rcases abs_eq_abs.1 htie with hsame | hflip
  · rcases h with h | h <;> linarith
  · rcases h with h | h
    · rw [abs_of_pos (by linarith : 0 < q - a), abs_lt]
      constructor <;> linarith
    · rw [abs_of_neg (by linarith : q - a < 0), abs_lt]
      constructor <;> linarith

/-- A distance is scaled with both numbers. -/
theorem dist_mul {c : ℚ} (hc : 0 < c) (a b : ℚ) : |a - b * c| = |a / c - b| * c := by
  rw [← abs_of_pos hc, ← abs_mul, abs_of_pos hc, sub_mul, div_mul_cancel₀ _ hc.ne']

/-- A distance in units is that of the numbers, scaled. -/
theorem dist_units {c : ℚ} (hc : 0 < c) (a b : ℚ) : |a * c - b| = |a - b / c| * c := by
  rw [abs_sub_comm, dist_mul hc, abs_sub_comm]

/-- The distance to a mantissa with places behind it, without the places. -/
theorem dist_places (u : ℚ) (k places : Nat) :
    |u - (k * 2 ^ places : Nat)| = |u / 2 ^ places - k| * 2 ^ places := by
  rw [Nat.cast_mul, Nat.cast_pow, Nat.cast_ofNat, dist_mul (by positivity)]

/-! ## Bits -/

/-- The count of units that the bits behind the sign stand for. -/
def magnitude (word : Nat) : Nat :=
  if word / 2 ^ 52 = 0 then word else (2 ^ 52 + word % 2 ^ 52) * 2 ^ (word / 2 ^ 52 - 1)

/-- Words are ordered as what they stand for. -/
theorem magnitude_strictMono : StrictMono magnitude := by
  refine strictMono_nat_of_lt_succ fun word => ?_
  unfold magnitude
  by_cases hcarry : word % 2 ^ 52 = 2 ^ 52 - 1
  · have hexponent : (word + 1) / 2 ^ 52 = word / 2 ^ 52 + 1 := by omega
    have hfraction : (word + 1) % 2 ^ 52 = 0 := by omega
    rw [hexponent, hfraction, if_neg (Nat.succ_ne_zero _), Nat.add_sub_cancel, hcarry]
    split
    · next hzero =>
      rw [hzero]
      omega
    · next hzero =>
      obtain ⟨e, he⟩ := Nat.exists_eq_succ_of_ne_zero hzero
      have hpow : 0 < 2 ^ e := Nat.two_pow_pos e
      rw [he, Nat.succ_sub_one, pow_succ]
      omega
  · have hexponent : (word + 1) / 2 ^ 52 = word / 2 ^ 52 := by omega
    have hfraction : (word + 1) % 2 ^ 52 = word % 2 ^ 52 + 1 := by omega
    rw [hexponent, hfraction]
    split
    · exact Nat.lt_succ_self word
    · exact Nat.mul_lt_mul_of_pos_right (by omega) (Nat.two_pow_pos _)

/-- What a word stands for is a mantissa with places behind it, and its last bit is that of the
mantissa. -/
theorem magnitude_eq (word : Nat) :
    ∃ k t, magnitude word = k * 2 ^ t ∧ k < 2 ^ 53 ∧ (0 < t → 2 ^ 52 ≤ k) ∧
      (Even k → Even word) := by
  unfold magnitude
  split
  · exact ⟨word, 0, by rw [pow_zero, mul_one], by omega, nofun, id⟩
  · refine ⟨_, _, rfl, by omega, fun _ => Nat.le_add_right _ _, fun h => ?_⟩
    rw [Nat.even_iff] at h ⊢
    omega

section
variable {x : Float} {negative : Bool} {units : Nat}

/-- The first bit of a double is its sign, and the others are its count of units. -/
theorem ofFloat_eq_finite (h : Binary64.ofFloat x = .finite negative units) :
    (2 ^ 63 ≤ x.toBits.toNat ↔ negative = true) ∧ units = magnitude (x.toBits.toNat % 2 ^ 63) := by
  have hmagnitude (word : Nat) : magnitude word = if word / twoPow 52 = 0 then word
      else (twoPow 52 + word % twoPow 52) * twoPow (word / twoPow 52 - 1) := rfl
  have hexponent : x.toBits.toNat % 2 ^ 63 / twoPow 52 =
      x.toBits.toNat / twoPow 52 % twoPow 11 := by
    simp only [twoPow_eq]
    omega
  have hfraction : x.toBits.toNat % 2 ^ 63 % twoPow 52 = x.toBits.toNat % twoPow 52 := by
    simp only [twoPow_eq]
    omega
  unfold Binary64.ofFloat at h
  dsimp only at h
  split at h
  · split at h <;> cases h
  · split at h
    · next hzero =>
      cases h
      rw [hmagnitude, hexponent, if_pos hzero, decide_eq_true_iff]
      refine ⟨Iff.rfl, ?_⟩
      simp only [twoPow_eq] at hzero ⊢
      omega
    · next hzero =>
      cases h
      rw [hmagnitude, hexponent, if_neg hzero, hfraction, decide_eq_true_iff]
      exact ⟨Iff.rfl, rfl⟩

/-- The first bit of a double is its sign. -/
theorem two_pow_le_toBits_iff (h : Binary64.ofFloat x = .finite negative units) :
    2 ^ 63 ≤ x.toBits.toNat ↔ negative = true :=
  (ofFloat_eq_finite h).1

/-- The last bit of a double is that of its mantissa. -/
theorem exists_mantissa (h : Binary64.ofFloat x = .finite negative units) :
    ∃ k t, units = k * 2 ^ t ∧ (0 < t → 2 ^ 52 ≤ k) ∧ (Even k → Even x.toBits.toNat) := by
  obtain ⟨k, t, hunits, -, hlow, heven⟩ := magnitude_eq (x.toBits.toNat % 2 ^ 63)
  refine ⟨k, t, (ofFloat_eq_finite h).2.trans hunits, hlow, fun hk => ?_⟩
  have hword := heven hk
  rw [Nat.even_iff] at hword ⊢
  omega

end

/-! ## Only one double is the nearest -/

/-- There is a double for a count of units with either sign. -/
theorem exists_exactValue_signed {w : Nat} (h : Holds w) (hrange : w < Binary64.overflow)
    (negative : Bool) :
    ∃ z : Float, z.isFinite ∧ exactValue z = signed negative (w / Binary64.one : ℚ) := by
  have habs : (signed negative w : Int).natAbs = w := by rw [natAbs_signed, Int.natAbs_natCast]
  obtain ⟨z, hz, hvalue⟩ := exists_exactValue_eq (habs.symm ▸ h) (habs.symm ▸ hrange)
  refine ⟨z, hz, hvalue.trans ?_⟩
  rw [cast_signed, Int.cast_natCast]
  cases negative
  · rfl
  · exact neg_div _ _

/-- A double is its bits. -/
theorem toBits_injective : Function.Injective Float.toBits := by
  rintro ⟨⟨bits, hx⟩⟩ ⟨⟨bits', hy⟩⟩ h
  obtain rfl : bits = bits' := h
  rfl

namespace NearestDouble
variable {q : ℚ} {x y : Float} {negative : Bool} {units units' : Nat}

/-- Between two doubles with even mantissas there is a third one. -/
theorem exists_between (hx : Even x.toBits.toNat) (hy : Even y.toBits.toNat)
    (hread : Binary64.ofFloat x = .finite negative units)
    (hread' : Binary64.ofFloat y = .finite negative units') (hlt : units < units') :
    ∃ w, Holds w ∧ units < w ∧ w < units' := by
  obtain ⟨-, hunits⟩ := ofFloat_eq_finite hread
  obtain ⟨-, hunits'⟩ := ofFloat_eq_finite hread'
  rw [hunits, hunits'] at hlt ⊢
  have hword := magnitude_strictMono.lt_iff_lt.1 hlt
  have hgap : x.toBits.toNat % 2 ^ 63 + 1 < y.toBits.toNat % 2 ^ 63 := by
    rw [Nat.even_iff] at hx hy
    omega
  obtain ⟨k, t, hbetween, hk, -, -⟩ := magnitude_eq (x.toBits.toNat % 2 ^ 63 + 1)
  exact ⟨_, ⟨k, t, hk, hbetween⟩, magnitude_strictMono (Nat.lt_succ_self _),
    magnitude_strictMono hgap⟩

/-- Of two doubles that are as near one has an odd mantissa, or a third one between them is
nearer. -/
theorem units_le (hx : NearestDouble q x) (hy : NearestDouble q y)
    (hread : Binary64.ofFloat x = .finite negative units)
    (hread' : Binary64.ofFloat y = .finite negative units') : units' ≤ units := by
  by_contra hless
  have hone : (0 : ℚ) < Binary64.one := Nat.cast_pos.2 Binary64.one_pos
  have hratio {v w : Nat} (h : v < w) : (v : ℚ) / Binary64.one < w / Binary64.one :=
    (div_lt_div_iff_of_pos_right hone).2 (Nat.cast_lt.2 h)
  have hlt := not_le.1 hless
  have hvalue := exactValue_eq hread
  have hvalue' := exactValue_eq hread'
  have hne : exactValue y ≠ exactValue x := by
    rw [hvalue, hvalue']
    intro heq
    cases negative
    · exact (hratio hlt).ne' heq
    · exact (hratio hlt).ne' (neg_injective heq)
  have htie : |q - exactValue y| = |q - exactValue x| :=
    (hy.near x hx.isFinite).antisymm (hx.near y hy.isFinite)
  obtain ⟨w, hw, hafter, hbefore⟩ := exists_between (hx.even y hy.isFinite hne htie)
    (hy.even x hx.isFinite hne.symm htie.symm) hread hread' hlt
  obtain ⟨z, hz, hmiddle⟩ :=
    exists_exactValue_signed hw (hbefore.trans (units_lt hread')) negative
  refine absurd (hx.near z hz) (not_le.2 (dist_lt_of_between htie ?_))
  rw [hmiddle, hvalue, hvalue']
  cases negative
  · exact .inl ⟨hratio hafter, hratio hbefore⟩
  · exact .inr ⟨neg_lt_neg (hratio hbefore), neg_lt_neg (hratio hafter)⟩

/-- There is one double nearest to a number. -/
theorem unique (hx : NearestDouble q x) (hy : NearestDouble q y) : x = y := by
  obtain ⟨negative, units, hread⟩ := exists_ofFloat_eq hx.isFinite
  obtain ⟨negative', units', hread'⟩ := exists_ofFloat_eq hy.isFinite
  obtain ⟨hsign, hunits⟩ := ofFloat_eq_finite hread
  obtain ⟨hsign', hunits'⟩ := ofFloat_eq_finite hread'
  obtain rfl : negative = negative' :=
    Bool.eq_iff_iff.2 (by rw [← hsign, ← hsign', hx.sign, hy.sign])
  obtain rfl : units = units' :=
    le_antisymm (hy.units_le hx hread' hread) (hx.units_le hy hread hread')
  have hword := magnitude_strictMono.injective (hunits.symm.trans hunits')
  have hfirst : 2 ^ 63 ≤ x.toBits.toNat ↔ 2 ^ 63 ≤ y.toBits.toNat := hsign.trans hsign'.symm
  have hx := x.toBits.toNat_lt
  have hy := y.toBits.toNat_lt
  exact toBits_injective (UInt64.toNat_inj.1 (by omega))

end NearestDouble

/-! ## Rounding to a mantissa -/

/-- A count of units is rounded to a mantissa with places behind it, as many as leave fifty-three
binary digits. -/
structure Rounds (u : ℚ) (n places : Nat) : Prop where
  near : NearestEven (u / 2 ^ places) n
  lt : u < 2 ^ (places + 53)
  le : 0 < places → 2 ^ (places + 52) ≤ u

/-- The count nearest to a fraction is its rounding to a mantissa. -/
theorem rounds_nearest (num : Nat) {den : Nat} (hden : 0 < den) :
    ∃ n places, Binary64.nearest num den = n * 2 ^ places ∧
      Rounds (num / den * Binary64.one) n places := by
  have hden' : (0 : ℚ) < den := Nat.cast_pos.2 hden
  have hunits : (num : ℚ) / den * Binary64.one = (num * Binary64.one : Nat) / den := by
    rw [div_mul_eq_mul_div, Nat.cast_mul]
  refine ⟨_, _, rfl, ?_, ?_, ?_⟩
  · have hnear := roundHalfEven_nearest (num * Binary64.one)
      (Nat.mul_pos hden (twoPow_pos (Binary64.spacing (num * Binary64.one / den))))
    rwa [Nat.cast_mul den, cast_twoPow, ← div_div, ← hunits] at hnear
  · rw [hunits]
    generalize num * Binary64.one = total
    have hlt : total < den * (total / den + 1) := Nat.lt_mul_div_succ total hden
    have hlog : total / den + 1 ≤ 2 ^ (Binary64.spacing (total / den) + 53) :=
      Nat.succ_le_of_lt (Nat.lt_log2_self.trans_le
        (Nat.pow_le_pow_right two_pos (by unfold Binary64.spacing; omega)))
    rw [div_lt_iff₀ hden', mul_comm]
    exact_mod_cast hlt.trans_le (Nat.mul_le_mul_left den hlog)
  · intro hplaces
    rw [hunits]
    generalize num * Binary64.one = total at hplaces ⊢
    have hne : total / den ≠ 0 := by
      intro hzero
      rw [hzero] at hplaces
      exact absurd hplaces (by decide)
    have hlog : 2 ^ (Binary64.spacing (total / den) + 52) ≤ total / den := by
      have hself := Nat.log2_self_le hne
      unfold Binary64.spacing at hplaces ⊢
      rwa [Nat.sub_add_cancel (by omega)]
    exact le_trans (by exact_mod_cast hlog) Nat.cast_div_le

namespace Rounds

variable {u : ℚ} {n places : Nat}

/-- A rounded mantissa has no more bits than a mantissa, or is the next power of two. -/
theorem le_two_pow (h : Rounds u n places) : n ≤ 2 ^ 53 := by
  refine h.near.le_of_le_natCast ?_
  rw [div_le_iff₀ (by positivity), Nat.cast_pow, Nat.cast_ofNat, ← pow_add, Nat.add_comm]
  exact h.lt.le

/-- A mantissa with places behind it has all its bits. -/
theorem two_pow_le (h : Rounds u n places) (hplaces : 0 < places) : 2 ^ 52 ≤ n := by
  refine h.near.le_of_natCast_le ?_
  rw [le_div_iff₀ (by positivity), Nat.cast_pow, Nat.cast_ofNat, ← pow_add, Nat.add_comm]
  exact h.le hplaces

/-- A double holds what is rounded. -/
theorem holds (h : Rounds u n places) : Holds (n * 2 ^ places) := by
  rcases Nat.lt_or_ge n (2 ^ 53) with hlt | hge
  · exact ⟨n, places, hlt, rfl⟩
  · refine ⟨1, 53 + places, by decide, ?_⟩
    rw [Nat.le_antisymm h.le_two_pow hge, pow_add, one_mul]

/-- No count that a double holds is nearer, and where another one is as near the mantissa is even.
-/
theorem le_dist (h : Rounds u n places) {w : Nat} (hw : Holds w) :
    |u - (n * 2 ^ places : Nat)| ≤ |u - w| ∧
      (w ≠ n * 2 ^ places → |u - w| = |u - (n * 2 ^ places : Nat)| → Even n) := by
  have hpos : (0 : ℚ) < 2 ^ places := by positivity
  have hgrid (k : Nat) : |u - (n * 2 ^ places : Nat)| ≤ |u - (k * 2 ^ places : Nat)| := by
    rw [dist_places, dist_places]
    exact mul_le_mul_of_nonneg_right (h.near.le_dist k) hpos.le
  rcases hw.dvd_or_lt (rfl : 2 ^ places = 2 ^ places) with ⟨k, rfl⟩ | ⟨m, p, hm, hp, rfl⟩
  · rw [Nat.mul_comm (2 ^ places)]
    refine ⟨hgrid k, fun hne htie => ?_⟩
    rw [dist_places, dist_places] at htie
    exact h.near.even_of_tie (fun heq => hne (by rw [heq])) (mul_right_cancel₀ hpos.ne' htie)
  · -- such a count is less than all those with so many places, and `u` is not
    have hless : m * 2 ^ p < 2 ^ 52 * 2 ^ places := by
      calc m * 2 ^ p < 2 ^ 53 * 2 ^ p := Nat.mul_lt_mul_of_pos_right hm (Nat.two_pow_pos p)
        _ = 2 ^ 52 * 2 ^ (p + 1) := by ring
        _ ≤ 2 ^ 52 * 2 ^ places := Nat.mul_le_mul_left _ (Nat.pow_le_pow_right two_pos hp)
    have hle : ((2 ^ 52 * 2 ^ places : Nat) : ℚ) ≤ u := by
      rw [← pow_add, Nat.cast_pow, Nat.cast_ofNat, Nat.add_comm]
      exact h.le (Nat.zero_lt_of_lt hp)
    have hlt : |u - (2 ^ 52 * 2 ^ places : Nat)| < |u - (m * 2 ^ p : Nat)| := by
      have hcast : ((m * 2 ^ p : Nat) : ℚ) < (2 ^ 52 * 2 ^ places : Nat) := Nat.cast_lt.2 hless
      rw [abs_of_nonneg (by linarith), abs_of_nonneg (by linarith)]
      linarith
    have hfar := (hgrid (2 ^ 52)).trans_lt hlt
    exact ⟨hfar.le, fun _ htie => absurd htie hfar.ne'⟩

/-- The bound of the doubles, in units. -/
theorem overflowBound_mul : overflowBound * Binary64.one = (2 ^ 54 - 1) * 2 ^ 2044 := by
  rw [overflowBound, Binary64.one, cast_twoPow, sub_mul, sub_one_mul, ← pow_add, ← pow_add,
    ← pow_add]

/-- What is rounded is in range below the bound. -/
theorem lt_overflow_iff (h : Rounds u n places) :
    n * 2 ^ places < Binary64.overflow ↔ u < overflowBound * Binary64.one := by
  have hoverflow : Binary64.overflow = 2 ^ 53 * 2 ^ 2045 := by
    rw [Binary64.overflow, twoPow_eq, ← pow_add]
  have hc : (0 : ℚ) < 2 ^ 2044 := by positivity
  rw [overflowBound_mul, hoverflow]
  rcases lt_trichotomy places 2045 with hplaces | hplaces | hplaces
  · refine iff_of_true ?_ ?_
    · have hpow {p : Nat} (hp : places < p) : n * 2 ^ places < 2 ^ 53 * 2 ^ p :=
        (Nat.mul_le_mul_right _ h.le_two_pow).trans_lt
          (Nat.mul_lt_mul_of_pos_left (Nat.pow_lt_pow_right (by decide) hp) (by decide))
      exact hpow hplaces
    · calc u < 2 ^ (places + 53) := h.lt
        _ ≤ 2 ^ (53 + 2044) := pow_le_pow_right₀ (by norm_num) (by omega)
        _ = 2 ^ 53 * 2 ^ 2044 := pow_add _ _ _
        _ ≤ (2 ^ 54 - 1) * 2 ^ 2044 := mul_le_mul_of_nonneg_right (by norm_num) hc.le
  · have hhalf : ((2 : ℚ) ^ 54 - 1) * 2 ^ 2044 = (2 ^ 53 - 1 / 2) * 2 ^ places := by
      rw [hplaces, show (2 : ℚ) ^ 2045 = 2 ^ 2044 * 2 from pow_succ 2 2044]
      generalize (2 : ℚ) ^ 2044 = c
      ring
    rw [← hplaces, Nat.mul_lt_mul_right (Nat.two_pow_pos places), h.near.lt_iff (by decide),
      div_lt_iff₀ (by positivity), Nat.cast_pow, Nat.cast_ofNat, hhalf]
  · refine iff_of_false (not_lt.2 ?_) (not_lt.2 ?_)
    · have hpow {p : Nat} (hp : p < places) : 2 ^ 53 * 2 ^ p ≤ n * 2 ^ places :=
        calc 2 ^ 53 * 2 ^ p = 2 ^ 52 * 2 ^ (p + 1) := by ring
          _ ≤ n * 2 ^ places := Nat.mul_le_mul (h.two_pow_le (Nat.zero_lt_of_lt hp))
            (Nat.pow_le_pow_right two_pos hp)
      exact hpow hplaces
    · calc (2 ^ 54 - 1) * 2 ^ 2044 ≤ (2 : ℚ) ^ 54 * 2 ^ 2044 :=
            mul_le_mul_of_nonneg_right (by norm_num) hc.le
        _ = 2 ^ (54 + 2044) := (pow_add _ _ _).symm
        _ ≤ 2 ^ (places + 52) := pow_le_pow_right₀ (by norm_num) (by omega)
        _ ≤ u := h.le (by omega)

/-- An even mantissa is that of the double, or it carries into the next place. -/
theorem even_toBits (h : Rounds u n places) {x : Float} {negative : Bool}
    (hx : Binary64.ofFloat x = .finite negative (n * 2 ^ places)) (heven : Even n) :
    Even x.toBits.toNat := by
  obtain ⟨k, t, hunits, hlow, hbits⟩ := exists_mantissa hx
  refine hbits ?_
  rcases Nat.le_total t places with hle | hle
  · have hk : k = n * 2 ^ (places - t) := by
      refine Nat.eq_of_mul_eq_mul_right (Nat.two_pow_pos t) ?_
      rw [← hunits, mul_assoc, ← pow_add, Nat.sub_add_cancel hle]
    exact hk ▸ heven.mul_right _
  · have hn : n = k * 2 ^ (t - places) := by
      refine Nat.eq_of_mul_eq_mul_right (Nat.two_pow_pos places) ?_
      rw [hunits, mul_assoc, ← pow_add, Nat.sub_add_cancel hle]
    rcases Nat.eq_or_lt_of_le hle with rfl | hlt
    · rwa [hn, Nat.sub_self, pow_zero, mul_one] at heven
    · have hbound := hn ▸ h.le_two_pow
      have htwo : 2 ^ 1 ≤ 2 ^ (t - places) := Nat.pow_le_pow_right two_pos (by omega)
      have hmul := Nat.mul_le_mul_left k htwo
      have hk := hlow (Nat.zero_lt_of_lt hlt)
      obtain rfl : k = 2 ^ 52 := by omega
      exact ⟨2 ^ 51, by norm_num⟩

/-- The double of what is rounded is the nearest one. -/
theorem nearestDouble {q : ℚ} (h : Rounds (|q| * Binary64.one) n places)
    (hrange : |q| < overflowBound) {x : Float}
    {negative : Bool} (hx : Binary64.ofFloat x = .finite negative (n * 2 ^ places))
    (hnegative : negative = true ↔ q < 0) : NearestDouble q x := by
  have hone : (0 : ℚ) < Binary64.one := Nat.cast_pos.2 Binary64.one_pos
  have hq : q = signed negative |q| := by
    cases negative with
    | false => exact (abs_of_nonneg (not_lt.1 fun hlt => Bool.false_ne_true (hnegative.2 hlt))).symm
    | true => rw [signed_true, abs_of_neg (hnegative.1 rfl), neg_neg]
  have hnonneg (w : Nat) : (0 : ℚ) ≤ w / Binary64.one := div_nonneg (Nat.cast_nonneg w) hone.le
  have hself : |q - exactValue x| * Binary64.one =
      |(|q| * Binary64.one) - (n * 2 ^ places : Nat)| := by
    rw [dist_units hone, exactValue_eq hx]
    nth_rewrite 1 [hq]
    rw [← signed_sub, abs_signed]
  have hother {y : Float} (hy : y.isFinite) : ∃ w : Nat, Holds w ∧
      |exactValue y| = w / Binary64.one ∧
      |(|q| * Binary64.one) - w| ≤ |q - exactValue y| * Binary64.one := by
    obtain ⟨negative', w, hread, hw, -⟩ := exists_holds hy
    have habs : |exactValue y| = w / Binary64.one := by
      rw [exactValue_eq hread, abs_signed, abs_of_nonneg (hnonneg w)]
    refine ⟨w, hw, habs, ?_⟩
    rw [dist_units hone, ← habs]
    exact mul_le_mul_of_nonneg_right (abs_abs_sub_abs_le q (exactValue y)) hone.le
  refine ⟨(counts_of_ofFloat hx).isFinite, hrange, fun y hy => ?_, fun y hy hne htie => ?_, ?_⟩
  · obtain ⟨w, hw, -, hle⟩ := hother hy
    refine le_of_mul_le_mul_right ?_ hone
    exact hself.trans_le ((h.le_dist hw).1.trans hle)
  · obtain ⟨w, hw, hvalue, hle⟩ := hother hy
    by_cases hsame : w = n * 2 ^ places
    · -- opposite doubles are as near only to zero, which is rounded to zero
      have hopposite : |exactValue y| = |exactValue x| := by
        rw [hvalue, exactValue_eq hx, abs_signed, abs_of_nonneg (hnonneg _), hsame]
      have hflip := (abs_eq_abs.1 hopposite).resolve_left hne
      rw [hflip, sub_neg_eq_add] at htie
      rcases abs_eq_abs.1 htie with hzero | hzero
      · exact absurd (by linarith) hne
      · obtain rfl : q = 0 := by linarith
        have hn : n ≤ 0 := h.near.le_of_le_natCast (by
          rw [abs_zero, zero_mul, zero_div, Nat.cast_zero])
        exact h.even_toBits hx (Nat.le_zero.1 hn ▸ Even.zero)
    · rw [htie, hself] at hle
      exact h.even_toBits hx ((h.le_dist hw).2 hsame (hle.antisymm (h.le_dist hw).1))
  · rw [two_pow_le_toBits_iff hx, hnegative]

end Rounds

/-! ## Decimal numbers -/

/-- The greatest power of two is less than some power of ten. -/
theorem two_pow_le_ten_pow : (2 : ℚ) ^ 1024 ≤ 10 ^ 309 := by
  have hpow : ((2 ^ 1024 : Nat) : ℚ) ≤ (10 ^ 309 : Nat) := Nat.cast_le.2 (by decide +kernel)
  rw [Nat.cast_pow, Nat.cast_pow, Nat.cast_ofNat, Nat.cast_ofNat] at hpow
  exact hpow

namespace Decimal

/-- A number as the ratio that it is rounded as. -/
theorem num_div_den (d : Decimal) : (d.num : ℚ) / d.den = d.value := by
  rw [num, den, value, zpow_ten_eq, Nat.cast_mul, mul_div_assoc]

/-- A decimal number without a sign is not negative. -/
theorem value_nonneg (d : Decimal) : 0 ≤ d.value :=
  mul_nonneg (Nat.cast_nonneg _) (zpow_nonneg (by norm_num) _)

/-- The exponent of the first digit gives the powers of ten around a number. -/
theorem value_bounds {d : Decimal} (h : d.coefficient ≠ 0) :
    10 ^ (tenLog d.coefficient + d.exponent) ≤ d.value ∧
      d.value < 10 ^ (tenLog d.coefficient + d.exponent + 1) := by
  have hten : (10 : ℚ) ≠ 0 := by norm_num
  have hpow : (0 : ℚ) < 10 ^ d.exponent := zpow_pos (by norm_num) _
  have hlow : ((10 ^ tenLog d.coefficient : Nat) : ℚ) ≤ d.coefficient := by
    rw [tenLog_eq]
    exact Nat.cast_le.2 (Nat.pow_log_le_self 10 h)
  have hhigh : (d.coefficient : ℚ) < (10 ^ (tenLog d.coefficient + 1) : Nat) := by
    rw [tenLog_eq]
    exact Nat.cast_lt.2 (Nat.lt_pow_succ_log_self (by decide) _)
  rw [Nat.cast_pow, Nat.cast_ofNat, ← zpow_natCast] at hlow hhigh
  rw [value, add_right_comm, zpow_add₀ hten, zpow_add₀ hten]
  exact ⟨mul_le_mul_of_nonneg_right hlow hpow.le, mul_lt_mul_of_pos_right hhigh hpow⟩

/-- Numbers of more than 309 digits are out of range. -/
theorem overflowBound_le : overflowBound ≤ 10 ^ (309 : Int) := by
  have hless : (0 : ℚ) < 2 ^ 970 := by positivity
  rw [overflowBound, zpow_ofNat]
  exact (sub_le_self _ hless.le).trans two_pow_le_ten_pow

/-- Below half a unit everything is rounded to zero. -/
theorem rounds_zero {u : ℚ} (hu : 0 ≤ u) (hlt : u < 1 / 2) : Rounds u 0 0 := by
  refine ⟨?_, ?_, nofun⟩
  · refine ⟨?_, fun _ => Even.zero⟩
    rw [pow_zero, div_one, Nat.cast_zero, sub_zero, abs_of_nonneg hu]
    exact hlt.le
  · norm_num
    linarith

/-- A number that is small enough is less than half a unit. -/
theorem mul_one_lt {q : ℚ} (h : q < 10 ^ (-325 : Int)) : q * Binary64.one < 1 / 2 := by
  have hone : (0 : ℚ) < Binary64.one := Nat.cast_pos.2 Binary64.one_pos
  have hpow : ((2 * Binary64.one : Nat) : ℚ) < (10 ^ 325 : Nat) :=
    Nat.cast_lt.2 (by decide +kernel)
  rw [Nat.cast_mul, Nat.cast_pow, Nat.cast_ofNat, Nat.cast_ofNat] at hpow
  rw [zpow_neg, zpow_ofNat] at h
  generalize (Binary64.one : ℚ) = one at hone hpow ⊢
  have hten : (0 : ℚ) < 10 ^ 325 := by positivity
  generalize (10 : ℚ) ^ 325 = ten at h hpow hten
  calc q * one < ten⁻¹ * one := mul_lt_mul_of_pos_right h hone
    _ = one / ten := by rw [inv_mul_eq_div]
    _ < 1 / 2 := by
      rw [div_lt_div_iff₀ hten two_pos]
      linarith

/-- The double of a decimal number is what its count of units is rounded to, if that is in range. -/
theorem double?_eq_rounded (d : Decimal) :
    ∃ n places, Rounds (d.value * Binary64.one) n places ∧
      d.double? = if n * 2 ^ places < Binary64.overflow then
        some (Binary64.positive (n * 2 ^ places)) else none := by
  have hone : (0 : ℚ) < Binary64.one := Nat.cast_pos.2 Binary64.one_pos
  have hzero (hsmall : d.value * Binary64.one < 1 / 2)
      (hdouble : d.double? = some (Binary64.positive 0)) :
      ∃ n places, Rounds (d.value * Binary64.one) n places ∧
        d.double? = if n * 2 ^ places < Binary64.overflow then
          some (Binary64.positive (n * 2 ^ places)) else none := by
    refine ⟨0, 0, rounds_zero (mul_nonneg d.value_nonneg hone.le) hsmall, ?_⟩
    rw [hdouble, zero_mul, if_pos (show 0 < Binary64.overflow from twoPow_pos 2098)]
  by_cases hcoefficient : d.coefficient = 0
  · refine hzero ?_ (by rw [double?, if_pos hcoefficient])
    rw [value, hcoefficient, Nat.cast_zero, zero_mul, zero_mul]
    norm_num
  have hten : (1 : ℚ) ≤ 10 := by norm_num
  have hlead : d.double? =
      if 309 ≤ tenLog d.coefficient + d.exponent then none
      else if tenLog d.coefficient + d.exponent < -325 then some (Binary64.positive 0)
      else Binary64.ofRatio? d.num d.den := if_neg hcoefficient
  obtain ⟨hlow, hhigh⟩ := value_bounds hcoefficient
  obtain ⟨n, places, hnearest, h⟩ := rounds_nearest d.num (tenPow_pos (-d.exponent).toNat)
  rw [← den, num_div_den] at h
  by_cases hlarge : 309 ≤ tenLog d.coefficient + d.exponent
  · have hbound : overflowBound ≤ d.value :=
      overflowBound_le.trans ((zpow_le_zpow_right₀ hten hlarge).trans hlow)
    refine ⟨n, places, h, ?_⟩
    rw [hlead, if_pos hlarge, if_neg]
    rw [h.lt_overflow_iff, mul_lt_mul_iff_left₀ hone]
    exact not_lt.2 hbound
  · rw [if_neg hlarge] at hlead
    by_cases hsmall : tenLog d.coefficient + d.exponent < -325
    · rw [if_pos hsmall] at hlead
      exact hzero (mul_one_lt (hhigh.trans_le (zpow_le_zpow_right₀ hten hsmall))) hlead
    · rw [if_neg hsmall] at hlead
      refine ⟨n, places, h, ?_⟩
      rw [hlead, Binary64.ofRatio?, ← hnearest]
      rfl

/-- Below the bound the double is the nearest one, and its opposite is that of the opposite number.
-/
theorem double?_nearest {d : Decimal} (h : d.value < overflowBound) :
    ∃ x, d.double? = some x ∧ NearestDouble d.value x ∧
      (0 < d.value → NearestDouble (-d.value) (-x)) := by
  have hone : (0 : ℚ) < Binary64.one := Nat.cast_pos.2 Binary64.one_pos
  have hnonneg := d.value_nonneg
  obtain ⟨n, places, hrounds, hdouble⟩ := d.double?_eq_rounded
  have hrange : n * 2 ^ places < Binary64.overflow := by
    rw [hrounds.lt_overflow_iff, mul_lt_mul_iff_left₀ hone]
    exact h
  have hread := ofFloat_positive hrounds.holds hrange
  rw [if_pos hrange] at hdouble
  refine ⟨_, hdouble, ?_, fun hpos => ?_⟩
  · have habs := abs_of_nonneg hnonneg
    refine Rounds.nearestDouble (by rwa [habs]) (habs.symm ▸ h) hread ?_
    exact iff_of_false Bool.false_ne_true (not_lt.2 hnonneg)
  · have habs : |-d.value| = d.value := by rw [abs_neg, abs_of_nonneg hnonneg]
    refine Rounds.nearestDouble (by rwa [habs]) (habs.symm ▸ h) (ofFloat_neg hread) ?_
    exact iff_of_true rfl (neg_neg_of_pos hpos)

/-- From the bound on there is no double. -/
theorem double?_eq_none {d : Decimal} (h : overflowBound ≤ d.value) : d.double? = none := by
  have hone : (0 : ℚ) < Binary64.one := Nat.cast_pos.2 Binary64.one_pos
  obtain ⟨n, places, hrounds, hdouble⟩ := d.double?_eq_rounded
  rw [hdouble, if_neg]
  rw [hrounds.lt_overflow_iff, mul_lt_mul_iff_left₀ hone]
  exact not_lt.2 h

end Decimal

end Reckon
