import Mathlib
import Reckon.Proofs.Rounding

/-!
# Doubles as rational numbers

`exactValue` is the rational number that a finite double is, by its sign, mantissa and exponent.
`Binary64.ofFloat` reads the same number in units of `2 ^ -1074` (`exactValue_eq`): `InUnits`
relates the two readings of a double, `inUnits_ofFloat` says that they belong together, and `Counts`
is what is left of them for arithmetic, a whole number of units.
-/

namespace Reckon

open Float.Model
open Float.Model.UnpackedFloat (Sign)

/-- The rational number that a finite double is. -/
def exactValue (x : Float) : ℚ :=
  match x.toModel.unpack with
  | .finite sign mantissa exponent _ => sign.apply mantissa * 2 ^ exponent
  | _ => 0

/-- Whether a sign is a minus. -/
def isNegative : Sign → Bool
  | .negative => true
  | .positive => false

/-- The mantissa of a positive double and the binary places behind it: all fifty-three bits of the
mantissa are used, unless the double is too small for that. -/
structure Canonical (mantissa places : Nat) : Prop where
  pos : 0 < mantissa
  lt : mantissa < 2 ^ 53
  le : 0 < places → 2 ^ 52 ≤ mantissa

/-- The reading of a double in units, against its mantissa and exponent. -/
inductive InUnits : UnpackedFloat → Binary64 → Prop
  | nan : InUnits .notANumber .nan
  | infinite (sign : Sign) : InUnits (.infinity sign) (.infinite (isNegative sign))
  | zero (sign : Sign) : InUnits (.zero sign) (.finite (isNegative sign) 0)
  | finite (sign : Sign) {mantissa places units : Nat} {exponent : Int}
      (h : Canonical mantissa places) : exponent = places - 1074 → units = mantissa * 2 ^ places →
      InUnits (.finite sign mantissa exponent h.pos) (.finite (isNegative sign) units)

section
variable (b : BitVec Format.binary64.numBits)

/-- The fraction of a double is in its last fifty-two bits. -/
theorem toNat_unpackMantissa : (UnpackedFloat.unpackMantissa b).toNat = b.toNat % 2 ^ 52 := by
  simp [UnpackedFloat.unpackMantissa]

/-- The exponent of a double is in the eleven bits in front of the fraction. -/
theorem toNat_unpackExponent :
    (UnpackedFloat.unpackExponent b).toNat = b.toNat / 2 ^ 52 % 2 ^ 11 := by
  simp [UnpackedFloat.unpackExponent, Nat.shiftRight_eq_div_pow]

/-- The mantissa of a double that is not too small has one bit more than its fraction. -/
theorem toNat_append_unpackMantissa :
    (1#1 ++ UnpackedFloat.unpackMantissa b).toNat =
      2 ^ 52 + (UnpackedFloat.unpackMantissa b).toNat := by
  rw [BitVec.toNat_append,
    ← Nat.shiftLeft_add_eq_or_of_lt (UnpackedFloat.unpackMantissa b).isLt]
  rfl

/-- The sign of a double is its first bit. -/
theorem isNegative_unpackSign :
    isNegative (Sign.ofBitVec (UnpackedFloat.unpackSign b)) = decide (2 ^ 63 ≤ b.toNat) := by
  have hsign : (UnpackedFloat.unpackSign b).toNat = b.toNat / 2 ^ 63 % 2 := by
    simp [UnpackedFloat.unpackSign, Nat.shiftRight_eq_div_pow]
  have hlt : b.toNat < 2 ^ 64 := b.isLt
  unfold Sign.ofBitVec
  by_cases hzero : UnpackedFloat.unpackSign b = 0#1
  · have hsmall : ¬ 2 ^ 63 ≤ b.toNat := by
      rw [hzero] at hsign
      have : (0#1).toNat = 0 := rfl
      omega
    rw [if_pos hzero, decide_eq_false hsmall]
    rfl
  · have hlarge : 2 ^ 63 ≤ b.toNat := by
      rw [← BitVec.toNat_inj, hsign] at hzero
      have : (0#1).toNat = 0 := rfl
      omega
    rw [if_neg hzero, decide_eq_true hlarge]
    rfl

end

/-- The reading in units of the word whose fields these are. -/
def ofFields (sign : Sign) (exponent fraction : Nat) : Binary64 :=
  if exponent = 2047 then
    if fraction = 0 then .infinite (isNegative sign) else .nan
  else if exponent = 0 then .finite (isNegative sign) fraction
  else .finite (isNegative sign) ((2 ^ 52 + fraction) * 2 ^ (exponent - 1))

/-- A mantissa with all its bits is read from the fraction behind its first one. -/
theorem ofFields_normal {m p : Nat} (hm : 2 ^ 52 ≤ m) (hp : p < 2046) (sign : Sign) :
    ofFields sign (p + 1) (m - 2 ^ 52) = .finite (isNegative sign) (m * 2 ^ p) := by
  rw [ofFields, if_neg (by omega), if_neg (by omega), Nat.add_sub_cancel' hm, Nat.add_sub_cancel]

/-- The fields of a word are in range. -/
theorem ofFields_lt {sign : Sign} {exponent fraction units r : Nat} {negative : Bool}
    (he : exponent ≤ 2047) (hf : fraction < 2 ^ 52) (hr : 2098 ≤ r)
    (h : ofFields sign exponent fraction = .finite negative units) : units < twoPow r := by
  unfold ofFields at h
  split at h
  · split at h <;> cases h
  · have hpow (n : Nat) (hn : n ≤ 2098) : 2 ^ n ≤ twoPow r :=
      Nat.pow_le_pow_right (by decide) (hn.trans hr)
    split at h
    · cases h
      exact hf.trans_le (hpow 52 (by decide))
    · injection h with _ hunits
      rw [← hunits]
      calc (2 ^ 52 + fraction) * 2 ^ (exponent - 1) < 2 ^ 53 * 2 ^ (exponent - 1) :=
            Nat.mul_lt_mul_of_pos_right (by omega) (Nat.two_pow_pos _)
        _ = 2 ^ (53 + (exponent - 1)) := (pow_add _ _ _).symm
        _ ≤ twoPow r := hpow _ (by omega)

/-- Both readings of the bits of a double belong together. -/
theorem inUnits_unpack (b : BitVec Format.binary64.numBits) :
    InUnits (UnpackedFloat.unpack Format.binary64 b)
      (ofFields (Sign.ofBitVec (UnpackedFloat.unpackSign b))
        (UnpackedFloat.unpackExponent b).toNat (UnpackedFloat.unpackMantissa b).toNat) := by
  have hmantissa : (UnpackedFloat.unpackMantissa b).toNat < 2 ^ 52 :=
    (UnpackedFloat.unpackMantissa b).isLt
  have hall : UnpackedFloat.unpackExponent b = -1#11 ↔
      (UnpackedFloat.unpackExponent b).toNat = 2047 := BitVec.toNat_inj.symm
  have hnone : UnpackedFloat.unpackExponent b = 0#11 ↔
      (UnpackedFloat.unpackExponent b).toNat = 0 := BitVec.toNat_inj.symm
  have hzero : UnpackedFloat.unpackMantissa b = 0#52 ↔
      (UnpackedFloat.unpackMantissa b).toNat = 0 := BitVec.toNat_inj.symm
  rw [UnpackedFloat.unpack, ofFields]
  split
  · next hmax =>
    rw [if_pos (hall.1 hmax)]
    split
    · next hm =>
      rw [if_pos (hzero.1 hm)]
      exact .infinite _
    · next hm =>
      rw [if_neg (mt hzero.2 hm)]
      exact .nan
  · next hmax =>
    rw [if_neg (mt hall.2 hmax)]
    split
    · next he =>
      rw [if_pos (hnone.1 he)]
      split
      · next hm =>
        rw [hzero.1 hm]
        exact .zero _
      · next hm =>
        have hcanonical : Canonical (UnpackedFloat.unpackMantissa b).toNat 0 :=
          ⟨Nat.pos_of_ne_zero (mt hzero.2 hm), by omega, fun h => absurd h (Nat.lt_irrefl 0)⟩
        refine .finite _ hcanonical ?_ ?_
        · rw [hnone.1 he]
          rfl
        · rw [pow_zero, mul_one]
    · next he =>
      rw [if_neg (mt hnone.2 he)]
      have happend := toNat_append_unpackMantissa b
      have hexponent : 0 < (UnpackedFloat.unpackExponent b).toNat :=
        Nat.pos_of_ne_zero (mt hnone.2 he)
      have hbias : ((Format.binary64.exponentBias +
          Format.binary64.mantissaBitsWithoutImplicit : Nat) : Int) = 1075 := rfl
      have hcanonical : Canonical (1#1 ++ UnpackedFloat.unpackMantissa b).toNat
          ((UnpackedFloat.unpackExponent b).toNat - 1) := by
        constructor <;> omega
      refine .finite _ hcanonical ?_ ?_
      · rw [← Nat.cast_add, hbias]
        omega
      · rw [happend]

/-- The reading of a double in units belongs to the one with mantissa and exponent. -/
theorem inUnits_ofFloat (x : Float) : InUnits x.toModel.unpack (Binary64.ofFloat x) := by
  have hfields := inUnits_unpack x.toModel.toBits.toBitVec
  rw [toNat_unpackMantissa, toNat_unpackExponent, ofFields, isNegative_unpackSign] at hfields
  exact hfields

/-- A double has one reading. -/
theorem InUnits.unique {u : UnpackedFloat} {reading reading' : Binary64} (h : InUnits u reading)
    (h' : InUnits u reading') : reading = reading' := by
  cases h with
  | nan | infinite | zero =>
    cases h'
    rfl
  | finite sign _ he hunits =>
    cases h' with
    | finite _ _ he' hunits' =>
      rw [hunits, hunits', Int.ofNat_inj.1 (sub_left_injective (he.symm.trans he'))]

/-- A finite double is read as a finite count of units. -/
theorem InUnits.exists_finite {u : UnpackedFloat} {reading : Binary64} (h : InUnits u reading)
    (hu : u.isFinite) : ∃ negative units, reading = .finite negative units := by
  cases h with
  | nan | infinite => cases hu
  | zero sign => exact ⟨_, _, rfl⟩
  | finite sign => exact ⟨_, _, rfl⟩

/-- A finite double has a count of units. -/
theorem exists_ofFloat_eq {x : Float} (h : x.isFinite) :
    ∃ negative units, Binary64.ofFloat x = .finite negative units :=
  (inUnits_ofFloat x).exists_finite h

/-- The reading of the unpacked double is that of its bits. -/
theorem ofFloat_eq_of_inUnits {x : Float} {reading : Binary64}
    (h : InUnits x.toModel.unpack reading) : Binary64.ofFloat x = reading :=
  (inUnits_ofFloat x).unique h

/-- An unpacked double is so many units. -/
inductive Counts : UnpackedFloat → Int → Prop
  | zero (sign : Sign) : Counts (.zero sign) 0
  | finite (sign : Sign) {mantissa places : Nat} {exponent z : Int}
      (h : Canonical mantissa places) : exponent = places - 1074 →
      z = sign.apply (mantissa * 2 ^ places : Nat) → Counts (.finite sign mantissa exponent h.pos) z

/-- The sign is kept apart from the count in both readings. -/
theorem signed_isNegative (sign : Sign) (n : Nat) :
    signed (isNegative sign) (n : Int) = sign.apply n := by
  cases sign <;> rfl

/-- A double that is read as a count of units is that many units. -/
theorem InUnits.counts {u : UnpackedFloat} {negative : Bool} {units : Nat}
    (h : InUnits u (.finite negative units)) : Counts u (signed negative units) := by
  cases h with
  | zero sign =>
    rw [signed_isNegative, show sign.apply (0 : Nat) = 0 by cases sign <;> rfl]
    exact .zero sign
  | finite sign h he hunits => exact .finite sign h he (by rw [signed_isNegative, hunits])

/-- A finite double is so many units. -/
theorem exists_counts {x : Float} (h : x.isFinite) : ∃ z, Counts x.toModel.unpack z := by
  obtain ⟨negative, units, hunits⟩ := exists_ofFloat_eq h
  exact ⟨_, (hunits ▸ inUnits_ofFloat x).counts⟩

section
variable {u : UnpackedFloat} {z w : Int}

/-- What is a number of units is finite. -/
theorem Counts.isFinite (h : Counts u z) : u.isFinite := by
  cases h <;> rfl

/-- A double is only one number of units. -/
theorem Counts.unique (h : Counts u z) (h' : Counts u w) : z = w := by
  cases h with
  | zero => cases h'; rfl
  | finite sign _ he hz =>
    cases h' with
    | finite _ _ he' hw =>
      rw [hz, hw, Int.ofNat_inj.1 (sub_left_injective (he.symm.trans he'))]

/-- A sign changes no absolute value. -/
theorem natAbs_signed (negative : Bool) (z : Int) : (signed negative z).natAbs = z.natAbs := by
  cases negative
  · rfl
  · exact Int.natAbs_neg z

/-- No double counts as many units as infinity would. -/
theorem Counts.natAbs_lt {x : Float} (h : Counts x.toModel.unpack z) :
    z.natAbs < Binary64.overflow := by
  have hread := inUnits_unpack x.toModel.toBits.toBitVec
  obtain ⟨negative, units, hunits⟩ := hread.exists_finite h.isFinite
  have hlt := ofFields_lt (Nat.le_of_lt_succ (BitVec.isLt _)) (BitVec.isLt _) le_rfl hunits
  rw [h.unique (hunits ▸ hread : InUnits _ (.finite negative units)).counts, natAbs_signed,
    Int.natAbs_natCast]
  exact hlt

end

/-- The value of a double is its count, in units. -/
theorem Counts.exactValue_eq {x : Float} {z : Int} (h : Counts x.toModel.unpack z) :
    exactValue x = z / Binary64.one := by
  unfold exactValue
  generalize x.toModel.unpack = u at h
  cases h with
  | zero sign => rw [Int.cast_zero, zero_div]
  | @finite sign mantissa places exponent _ _ hexponent hz =>
    have hscale : (2 : ℚ) ^ exponent = 2 ^ places / Binary64.one := by
      rw [hexponent, zpow_sub₀ two_ne_zero, zpow_natCast, zpow_ofNat, Binary64.one, cast_twoPow]
    have happly : sign.apply (mantissa * 2 ^ places : Nat) = sign.apply mantissa * 2 ^ places := by
      cases sign
      · show -((mantissa * 2 ^ places : Nat) : Int) = -(mantissa : Int) * 2 ^ places
        push_cast
        rw [neg_mul]
      · exact Nat.cast_mul _ _
    dsimp only
    rw [hz, hscale, happly, Int.cast_mul, Int.cast_pow, Int.cast_ofNat, mul_div_assoc]

/-- A double that is read as a count of units is so many units. -/
theorem counts_of_ofFloat {x : Float} {negative : Bool} {units : Nat}
    (h : Binary64.ofFloat x = .finite negative units) :
    Counts x.toModel.unpack (signed negative units) :=
  (h ▸ inUnits_ofFloat x : InUnits _ (.finite negative units)).counts

/-- The units of a finite double are in range. -/
theorem units_lt {x : Float} {negative : Bool} {units : Nat}
    (h : Binary64.ofFloat x = .finite negative units) : units < Binary64.overflow := by
  have hrange := (counts_of_ofFloat h).natAbs_lt
  rwa [natAbs_signed, Int.natAbs_natCast] at hrange

/-- The value of a double is its count of units. -/
theorem exactValue_eq {x : Float} {negative : Bool} {units : Nat}
    (h : Binary64.ofFloat x = .finite negative units) :
    exactValue x = signed negative (units / Binary64.one : ℚ) := by
  rw [(counts_of_ofFloat h).exactValue_eq]
  cases negative
  · rfl
  · show ((-(units : Int) : Int) : ℚ) / _ = -(units / _)
    rw [Int.cast_neg, Int.cast_natCast, neg_div]

end Reckon
