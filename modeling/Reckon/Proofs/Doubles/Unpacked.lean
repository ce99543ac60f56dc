import Reckon.Proofs.Doubles

/-!
# Operations on unpacked doubles

The result of an operation is rounded only if it has more digits than a mantissa. `Counts.sub` is
the difference, if a double holds it (`Holds`), `Counts.neg` and `Counts.abs` are the opposite and
the absolute value, and `Counts.compare_eq` is the comparison, all of them in counts of units. A
double in range is packed without loss (`InUnits.pack`), its sign included.
-/

namespace Reckon

open Float.Model
open Float.Model.UnpackedFloat

/-! ## Counts of units -/

/-- The binary digits of a count of units are no more than a mantissa has. -/
def Holds (units : Nat) : Prop :=
  ∃ m p, m < 2 ^ 53 ∧ units = m * 2 ^ p

section
variable {m p q k t units : Nat}

/-- A mantissa with its first bit free has no places behind it. -/
theorem Canonical.places_eq_zero (h : Canonical k t) (hk : k < 2 ^ 52) : t = 0 := by
  by_contra ht
  exact absurd (h.le (Nat.pos_of_ne_zero ht)) (Nat.not_le_of_lt hk)

/-- The first bit of a count of units is that of the mantissa, moved by the places behind it. -/
theorem Canonical.log2_eq (h : Canonical k t) (ht : 0 < t) : (k * 2 ^ t).log2 = 52 + t := by
  have hpos := Nat.two_pow_pos t
  rw [Nat.log2_eq_iff (Nat.mul_pos h.pos hpos).ne', show 52 + t + 1 = 53 + t by omega, pow_add,
    pow_add]
  exact ⟨Nat.mul_le_mul_right _ (h.le ht), Nat.mul_lt_mul_of_pos_right h.lt hpos⟩

/-- The places behind a mantissa are those that its count of units leaves. -/
theorem Canonical.spacing_eq (h : Canonical k t) : Binary64.spacing (k * 2 ^ t) = t := by
  unfold Binary64.spacing
  rcases Nat.eq_zero_or_pos t with rfl | ht
  · have hlog : k.log2 < 53 := (Nat.log2_lt h.pos.ne').2 h.lt
    rw [pow_zero, mul_one]
    omega
  · rw [h.log2_eq ht, Nat.add_sub_cancel_left]

/-- A positive count is a mantissa with places behind it. -/
theorem Holds.exists_canonical (h : Holds units) (hpos : 0 < units) :
    ∃ k t, Canonical k t ∧ units = k * 2 ^ t := by
  obtain ⟨m, p, hm, rfl⟩ := h
  induction p generalizing m with
  | zero =>
    rw [pow_zero, mul_one] at hpos
    exact ⟨m, 0, ⟨hpos, hm, fun h => absurd h (Nat.lt_irrefl 0)⟩, rfl⟩
  | succ p ih =>
    -- a mantissa that leaves its first bit free takes one place back
    by_cases hsmall : m < 2 ^ 52
    · obtain ⟨k, t, hkt, hunits⟩ := ih (m * 2) (by omega) (by rwa [mul_assoc, ← pow_succ'])
      exact ⟨k, t, hkt, by rw [← hunits, mul_assoc, ← pow_succ']⟩
    · have hmpos : 0 < m := Nat.pos_of_mul_pos_right hpos
      exact ⟨m, p + 1, ⟨hmpos, hm, fun _ => Nat.le_of_not_lt hsmall⟩, rfl⟩

/-! ## Rounding -/

/-- The exponent that a count is rounded to is the spacing of the doubles there. -/
theorem targetExponent_eq (hm : 0 < m) :
    Format.binary64.targetExponent (totalExponent m (q - 1074)) =
      Binary64.spacing (m * 2 ^ q) - 1074 := by
  have hlog : (m * 2 ^ q).log2 = m.log2 + q := by
    rw [Nat.log2_eq_iff (Nat.mul_pos hm (Nat.two_pow_pos q)).ne', pow_add, Nat.add_right_comm,
      pow_add]
    exact ⟨Nat.mul_le_mul_right _ (Nat.log2_self_le hm.ne'),
      Nat.mul_lt_mul_of_pos_right Nat.lt_log2_self (Nat.two_pow_pos q)⟩
  have hmin : Format.binary64.minExponent = -1074 := by decide
  have hbits : (Format.binary64.mantissaBits : Int) = 53 := rfl
  rw [Format.targetExponent, totalExponent, hmin, hbits, Binary64.spacing, hlog]
  omega

/-- A shift that drops zeros only is exact. -/
theorem shiftRight_exact (m n : Nat) :
    (⟨m * 2 ^ n, false, false⟩ : ExtendedMantissa) >>> n = ⟨m, false, false⟩ := by
  show n.repeat ExtendedMantissa.shiftRightOne ⟨m * 2 ^ n, false, false⟩ = _
  induction n generalizing m with
  | zero => rw [pow_zero, mul_one, Nat.repeat]
  | succ n ih =>
    rw [Nat.repeat, pow_succ', ← mul_assoc, ih]
    simp [ExtendedMantissa.shiftRightOne]

/-- A mantissa with zeros behind it is moved to its exponent without loss. -/
theorem shiftToTargetExponent_exact (hm : 0 < m) (h : Canonical k t)
    (hunits : m * 2 ^ q = k * 2 ^ t) (hle : q ≤ t) :
    shiftToTargetExponent Format.binary64 m (q - 1074) .exact =
      (ExtendedMantissa.mk k false false, (t : Int) - 1074) := by
  have hshift : ((t : Int) - 1074 - (q - 1074)).toNat = t - q := by omega
  have hmantissa : m = k * 2 ^ (t - q) := by
    refine Nat.eq_of_mul_eq_mul_right (Nat.two_pow_pos q) ?_
    rw [hunits, mul_assoc, ← pow_add, Nat.sub_add_cancel hle]
  rw [shiftToTargetExponent, targetExponent_eq hm, hunits, h.spacing_eq, shiftToExponent, hshift,
    ExtendedMantissa.ofMantissaAndAccuracy, hmantissa, shiftRight_exact]
  congr 1
  omega

variable {sign : Sign}

/-- A count with a mantissa is not rounded if its exponent is not too great. -/
theorem roundWithAccuracy_exact (hm : 0 < m) (h : Canonical k t) (hunits : m * 2 ^ q = k * 2 ^ t)
    (hle : q ≤ t) :
    roundWithAccuracy Format.binary64 sign m (q - 1074) .exact =
      .finite sign k (t - 1074) h.pos := by
  have hrounded : (ExtendedMantissa.mk k false false).roundedMantissa = k := rfl
  rw [roundWithAccuracy, shiftToTargetExponent_exact hm h hunits hle]
  dsimp only
  rw [hrounded, shiftToTargetExponent_exact h.pos h rfl le_rfl]
  exact dif_neg h.pos.ne'

/-- A count of units that has a mantissa is not rounded. -/
theorem round_exact (hm : 0 < m) (h : Canonical k t) (hunits : m * 2 ^ q = k * 2 ^ t) :
    UnpackedFloat.round Format.binary64 sign m (q - 1074) = .finite sign k (t - 1074) h.pos := by
  have hshift : ((q : Int) - 1074 - (t - 1074)).toNat = q - t := by omega
  have hexponent : (q : Int) - 1074 - (q - t : Nat) = (q - (q - t) : Nat) - 1074 := by omega
  have hsame : m <<< (q - t) * 2 ^ (q - (q - t)) = m * 2 ^ q := by
    rw [Nat.shiftLeft_eq, mul_assoc, ← pow_add, Nat.add_sub_cancel' (Nat.sub_le q t)]
  have hpos : 0 < m <<< (q - t) := by
    rw [Nat.shiftLeft_eq]
    exact Nat.mul_pos hm (Nat.two_pow_pos _)
  rw [UnpackedFloat.round, targetExponent_eq hm, hunits, h.spacing_eq, decreaseExponent]
  dsimp only
  rw [hshift, hexponent]
  exact roundWithAccuracy_exact hpos h (hsame.trans hunits) (by omega)

end

/-! ## Operations on unpacked doubles -/

section
variable {u v : UnpackedFloat} {z w : Int}

/-- The opposite sign makes the opposite number. -/
theorem apply_neg (sign : Sign) (z : Int) : (-sign).apply z = -sign.apply z := by
  cases sign
  · exact (neg_neg z).symm
  · rfl

/-- A sign is taken out of a product. -/
theorem apply_mul (sign : Sign) (z w : Int) : sign.apply (z * w) = sign.apply z * w := by
  cases sign
  · exact (neg_mul z w).symm
  · rfl

/-- Zeros at the end of a mantissa stand for places behind it. -/
theorem apply_shiftLeft (sign : Sign) (m : Nat) {p q : Nat} (h : q ≤ p) :
    sign.apply (m <<< (p - q) : Nat) * 2 ^ q = sign.apply (m * 2 ^ p : Nat) := by
  have hsame : m <<< (p - q) * 2 ^ q = m * 2 ^ p := by
    rw [Nat.shiftLeft_eq, mul_assoc, ← pow_add, Nat.sub_add_cancel h]
  rw [← apply_mul, ← hsame]
  push_cast
  rfl

/-- A sign changes no absolute value. -/
theorem natAbs_apply (sign : Sign) (z : Int) : (sign.apply z).natAbs = z.natAbs := by
  cases sign
  · exact Int.natAbs_neg z
  · rfl

/-- What a double counts, some mantissa holds. -/
theorem Counts.holds (h : Counts u z) : Holds z.natAbs := by
  cases h with
  | zero => exact ⟨0, 0, by decide, rfl⟩
  | finite sign h _ hz => exact ⟨_, _, h.lt, by rw [hz, natAbs_apply, Int.natAbs_natCast]⟩

/-- The opposite of a double counts the opposite. -/
theorem Counts.neg (h : Counts u z) : Counts u.neg (-z) := by
  cases h with
  | zero sign => exact .zero (-sign)
  | finite sign h he hz => exact .finite (-sign) h he (by rw [apply_neg, hz])

/-- The opposite of a double has the same count and the other sign. -/
theorem InUnits.neg {negative : Bool} {units : Nat} (h : InUnits u (.finite negative units)) :
    InUnits u.neg (.finite (!negative) units) := by
  have hsign (sign : Sign) : (!isNegative sign) = isNegative (-sign) := by cases sign <;> rfl
  cases h with
  | zero sign =>
    rw [hsign]
    exact .zero (-sign)
  | finite sign h he hunits =>
    rw [hsign]
    exact .finite (-sign) h he hunits

/-- The absolute value of a double counts the absolute value. -/
theorem Counts.abs (h : Counts u z) : Counts u.abs |z| := by
  cases h with
  | zero sign => exact .zero .positive
  | finite sign h he hz =>
    refine .finite .positive h he ?_
    rw [Int.abs_eq_natAbs, hz, natAbs_apply]
    rfl

/-- A count that a double holds is normalized without loss. -/
theorem normalize_exact {z : Int} {q : Nat} (sign : Sign) (h : Holds (z * 2 ^ q).natAbs) :
    Counts (UnpackedFloat.normalize Format.binary64 z (q - 1074) sign) (z * 2 ^ q) := by
  have hround (sign : Sign) (m : Nat) (hz : z = sign.apply m) (hm : 0 < m) :
      Counts (UnpackedFloat.round Format.binary64 sign m (q - 1074)) (z * 2 ^ q) := by
    have hunits : z * 2 ^ q = sign.apply (m * 2 ^ q : Nat) := by
      rw [hz, Nat.cast_mul, apply_mul, Nat.cast_pow, Nat.cast_ofNat]
    rw [hunits, natAbs_apply, Int.natAbs_natCast] at h
    obtain ⟨k, t, hcanonical, hsame⟩ := h.exists_canonical (Nat.mul_pos hm (Nat.two_pow_pos q))
    rw [round_exact hm hcanonical hsame, hunits, hsame]
    exact .finite sign hcanonical rfl rfl
  unfold UnpackedFloat.normalize
  rcases lt_trichotomy z 0 with hz | rfl | hz
  · rw [compare_lt_iff_lt.2 hz]
    refine hround .negative (-z).toNat ?_ (by omega)
    show z = -((-z).toNat : Int)
    omega
  · rw [Int.zero_mul]
    exact .zero sign
  · rw [compare_gt_iff_gt.2 hz]
    refine hround .positive z.toNat ?_ (by omega)
    show z = (z.toNat : Int)
    omega

/-- A difference that a double holds is exact. -/
theorem Counts.sub (hu : Counts u z) (hv : Counts v w) (h : Holds (z - w).natAbs) :
    Counts (UnpackedFloat.sub Format.binary64 u v) (z - w) := by
  cases hu with
  | zero sign =>
    cases hv with
    | zero sign' =>
      rw [sub_zero]
      unfold UnpackedFloat.sub
      dsimp only
      split
      · exact .zero _
      · exact .zero _
    | finite sign' h' he hw =>
      rw [zero_sub]
      exact .finite (-sign') h' he (by rw [apply_neg, hw])
  | @finite sign m p e _ hm he hz =>
    cases hv with
    | zero sign' =>
      rw [sub_zero]
      exact .finite sign hm he hz
    | @finite sign' m' p' e' _ hm' he' hw =>
      have hmin : min e e' = (min p p' : Nat) - 1074 := by omega
      have hshift : (e - min e e').toNat = p - min p p' := by omega
      have hshift' : (e' - min e e').toNat = p' - min p p' := by omega
      have hunits : (sign.apply (m <<< (p - min p p') : Nat) -
          sign'.apply (m' <<< (p' - min p p') : Nat)) * 2 ^ min p p' = z - w := by
        rw [sub_mul, apply_shiftLeft sign m (min_le_left p p'),
          apply_shiftLeft sign' m' (min_le_right p p'), hz, hw]
      unfold UnpackedFloat.sub decreaseExponent
      dsimp only
      rw [hshift, hshift', hmin, ← hunits]
      exact normalize_exact .positive (hunits ▸ h)

/-! ## Order -/

/-- Positive doubles are ordered by exponent and then by mantissa. -/
theorem Canonical.compare_eq {m p m' p' : Nat} {e e' : Int} (h : Canonical m p)
    (h' : Canonical m' p') (he : e = p - 1074) (he' : e' = p' - 1074) :
    (compare e e').then (compare m m') = compare (m * 2 ^ p) (m' * 2 ^ p') := by
  have hlt {m p m' p' : Nat} (h : Canonical m p) (h' : Canonical m' p') (hp : p < p') :
      m * 2 ^ p < m' * 2 ^ p' := by
    calc m * 2 ^ p < 2 ^ 53 * 2 ^ p := Nat.mul_lt_mul_of_pos_right h.lt (Nat.two_pow_pos p)
      _ = 2 ^ 52 * 2 ^ (p + 1) := by ring
      _ ≤ m' * 2 ^ p' := Nat.mul_le_mul (h'.le (Nat.zero_lt_of_lt hp))
        (Nat.pow_le_pow_right (by decide) hp)
  rcases lt_trichotomy p p' with hp | rfl | hp
  · rw [compare_lt_iff_lt.2 (by omega : e < e'), compare_lt_iff_lt.2 (hlt h h' hp)]
    rfl
  · have hmono : StrictMono fun n => n * 2 ^ p :=
      fun _ _ hn => Nat.mul_lt_mul_of_pos_right hn (Nat.two_pow_pos p)
    have hsame := hmono.cmp_map_eq m m'
    rw [cmp_eq_compare, cmp_eq_compare] at hsame
    rw [compare_eq_iff_eq.2 (by omega : e = e'), hsame]
    rfl
  · rw [compare_gt_iff_gt.2 (by omega : e' < e), compare_gt_iff_gt.2 (hlt h' h hp)]
    rfl

/-- Numbers of one sign compare as their absolute values do, the other way round if negative. -/
theorem compare_apply (sign : Sign) (n n' : Nat) :
    compare (sign.apply n) (sign.apply n') =
      match sign with
      | .negative => (compare n n').swap
      | .positive => compare n n' := by
  have hmono : StrictMono fun n : Nat => (n : Int) := fun _ _ hn => Int.ofNat_lt.2 hn
  have hanti : StrictAnti fun n : Nat => -(n : Int) := fun _ _ hn => neg_lt_neg (Int.ofNat_lt.2 hn)
  cases sign
  · have hsame := hanti.cmp_map_eq n n'
    rw [cmp_eq_compare, cmp_eq_compare, ← Nat.compare_swap n n'] at hsame
    exact hsame
  · have hsame := hmono.cmp_map_eq n n'
    rw [cmp_eq_compare, cmp_eq_compare] at hsame
    exact hsame

/-- A mantissa with a plus is positive. -/
theorem Canonical.apply_positive {m p : Nat} (h : Canonical m p) :
    0 < Sign.positive.apply (m * 2 ^ p : Nat) :=
  Nat.cast_pos.2 (Nat.mul_pos h.pos (Nat.two_pow_pos p))

/-- A mantissa with a minus is negative. -/
theorem Canonical.apply_negative {m p : Nat} (h : Canonical m p) :
    Sign.negative.apply (m * 2 ^ p : Nat) < 0 :=
  neg_neg_of_pos h.apply_positive

/-- Doubles are compared by their counts of units. -/
theorem Counts.compare_eq (hu : Counts u z) (hv : Counts v w) :
    u.compare v = some (compare z w) := by
  cases hu with
  | zero sign =>
    cases hv with
    | zero => rfl
    | finite sign' h' _ hw =>
      subst hw
      cases sign'
      · rw [compare_gt_iff_gt.2 h'.apply_negative]
        rfl
      · rw [compare_lt_iff_lt.2 h'.apply_positive]
        rfl
  | finite sign h he hz =>
    subst hz
    cases hv with
    | zero =>
      cases sign
      · rw [compare_lt_iff_lt.2 h.apply_negative]
        rfl
      · rw [compare_gt_iff_gt.2 h.apply_positive]
        rfl
    | finite sign' h' he' hw =>
      subst hw
      cases sign <;> cases sign'
      · rw [compare_apply, ← h.compare_eq h' he he']
        rfl
      · rw [compare_lt_iff_lt.2 (h.apply_negative.trans h'.apply_positive)]
        rfl
      · rw [compare_gt_iff_gt.2 (h'.apply_negative.trans h.apply_positive)]
        rfl
      · rw [compare_apply, ← h.compare_eq h' he he']
        rfl

/-- Doubles are less exactly if their counts are. -/
theorem Counts.lt_iff (hu : Counts u z) (hv : Counts v w) : u.lt v = true ↔ z < w := by
  rw [UnpackedFloat.lt, hu.compare_eq hv]
  show (some (compare z w) == some .lt) = true ↔ _
  rw [beq_iff_eq, Option.some_inj, compare_lt_iff_lt]

/-- Doubles are ordered by their counts. -/
theorem Counts.le_iff (hu : Counts u z) (hv : Counts v w) : u.le v = true ↔ z ≤ w := by
  rw [UnpackedFloat.le, hu.compare_eq hv]
  exact Int.isLE_compare

/-! ## Packing -/

/-- A count in range has few places behind its mantissa. -/
theorem Canonical.places_lt {m p r : Nat} (h : Canonical m p) (hrange : m * 2 ^ p < twoPow r)
    (hr : 52 < r) : 52 + p < r := by
  rcases Nat.eq_zero_or_pos p with rfl | hp
  · exact hr
  · have hlow : 2 ^ (52 + p) < 2 ^ r := by
      rw [pow_add]
      exact (Nat.mul_le_mul_right _ (h.le hp)).trans_lt hrange
    exact (Nat.pow_lt_pow_iff_right (by decide)).1 hlow

/-- The fields of a word say what it counts. -/
theorem inUnits_packComponents (sign : Sign) {exponent fraction units : Nat}
    (he : exponent < 2 ^ 11) (hf : fraction < 2 ^ 52)
    (hunits : ofFields sign exponent fraction = .finite (isNegative sign) units) :
    InUnits (UnpackedFloat.unpack Format.binary64 (packComponents Format.binary64 sign
      (BitVec.ofNat 11 exponent) (BitVec.ofNat 52 fraction)))
        (.finite (isNegative sign) units) := by
  have hread := inUnits_unpack (packComponents Format.binary64 sign (BitVec.ofNat 11 exponent)
    (BitVec.ofNat 52 fraction))
  rwa [unpackSign_packComponents, unpackExponent_packComponents, unpackMantissa_packComponents,
    Sign.ofBitVec_toBitVec, BitVec.toNat_ofNat, BitVec.toNat_ofNat, Nat.mod_eq_of_lt he,
    Nat.mod_eq_of_lt hf, hunits] at hread

/-- A double that is in range is packed without loss. -/
theorem InUnits.pack {negative : Bool} {units : Nat} (h : InUnits u (.finite negative units))
    (hrange : units < Binary64.overflow) :
    InUnits (Float.Model.pack u).unpack (.finite negative units) := by
  show InUnits (UnpackedFloat.unpack Format.binary64 (UnpackedFloat.pack Format.binary64 u)) _
  cases h with
  | zero sign => exact inUnits_packComponents sign (by decide) (by decide) rfl
  | @finite sign m p _ e h he hunits =>
    rw [hunits] at hrange ⊢
    have hp : 52 + p < 2098 := h.places_lt hrange (by decide)
    have hbias : (Format.binary64.exponentBias : Int) = 1023 := rfl
    have hbits : (Format.binary64.mantissaBitsWithoutImplicit : Int) = 52 := rfl
    have hall : Format.binary64.mantissaBits = 53 := rfl
    have hexponent : (e + Format.binary64.exponentBias +
        Format.binary64.mantissaBitsWithoutImplicit).toNat = p + 1 := by omega
    have hfits : ¬ 2 ^ Format.binary64.exponentBits ≤ p + 1 + 1 := by
      show ¬ 2 ^ 11 ≤ p + 1 + 1
      omega
    unfold UnpackedFloat.pack
    dsimp only
    rw [hexponent, if_neg hfits, hall]
    split
    · next hnormal =>
      have hlow : 2 ^ 52 ≤ m := (Nat.le_log2 h.pos.ne').1 (by omega)
      have hhigh := h.lt
      have hfraction : (BitVec.ofNat 52 m) = BitVec.ofNat 52 (m - 2 ^ 52) := by
        rw [← BitVec.toNat_inj, BitVec.toNat_ofNat, BitVec.toNat_ofNat]
        omega
      rw [hfraction]
      exact inUnits_packComponents sign (by omega) (by omega)
        (ofFields_normal hlow (by omega) sign)
    · next hsmall =>
      have hlow : m < 2 ^ 52 := (Nat.log2_lt h.pos.ne').1 (by
        have := (Nat.log2_lt h.pos.ne').2 h.lt
        omega)
      obtain rfl := h.places_eq_zero hlow
      rw [pow_zero, mul_one]
      exact inUnits_packComponents sign (by decide) hlow rfl

/-- A count of units is read with a sign. -/
theorem Counts.exists_inUnits (h : Counts u z) :
    ∃ negative units, InUnits u (.finite negative units) ∧ z = signed negative (units : Int) := by
  cases h with
  | zero sign =>
    refine ⟨_, 0, .zero sign, ?_⟩
    rw [signed_isNegative]
    cases sign <;> rfl
  | finite sign h he hz =>
    exact ⟨_, _, .finite sign h he rfl, by rw [signed_isNegative, hz]⟩

/-- Packing a count in range loses nothing. -/
theorem Counts.pack (h : Counts u z) (hrange : z.natAbs < Binary64.overflow) :
    Counts (Float.Model.pack u).unpack z := by
  obtain ⟨negative, units, hunits, rfl⟩ := h.exists_inUnits
  rw [natAbs_signed, Int.natAbs_natCast] at hrange
  exact (hunits.pack hrange).counts

end

end Reckon
