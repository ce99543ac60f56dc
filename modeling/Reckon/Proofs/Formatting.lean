import Reckon.Number.Rendering
import Reckon.Proofs.Writing

/-!
# Two roundings that agree

`significantText` writes a number twice, with an exponent and with decimals, and either text is
rounded on its own. Its result is that of a single rounding, to significant digits, laid out with as
many digits as are significant (`significantText_eq`): where the point stands in place, the last
decimal is the last significant digit, also where rounding carries into the next power of ten.
-/

namespace Reckon

/-! ## Trimming -/

section
variable {c : Char} {text : List Char}

/-- What is dropped at the end is dropped however much of it there is. -/
theorem dropEnd_append_replicate (c : Char) (text : List Char) (n : Nat) :
    dropEnd c (text ++ List.replicate n c) = dropEnd c text := by
  unfold dropEnd
  rw [List.reverse_append, List.reverse_replicate, List.dropWhile_append_of_pos]
  intro a ha
  exact decide_eq_true (List.eq_of_mem_replicate ha)

/-- Nothing is dropped from a text that ends otherwise. -/
theorem dropEnd_of_getLast? (h : text.getLast? ≠ some c) : dropEnd c text = text := by
  refine List.rdropWhile_eq_self_iff.2 fun hne hlast => h ?_
  rw [List.getLast?_eq_some_getLast hne, of_decide_eq_true hlast]

end

/-- Digits are nothing but digits. -/
theorem not_mem_of_isDigit {text : List Char} {c : Char} (h : ∀ c ∈ text, c.isDigit)
    (hc : ¬ c.isDigit) : c ∉ text :=
  fun hmem => hc (h c hmem)

/-- A part in front of the point and one behind it that could be empty. -/
def pointed (whole fraction : List Char) : List Char :=
  whole ++ if fraction.isEmpty then [] else '.' :: fraction

/-- A text without a point is not trimmed. -/
theorem trimFraction_of_not_mem {text : List Char} (h : '.' ∉ text) : trimFraction text = text :=
  if_neg h

/-- Behind a point, zeros at the end go, and the point goes with them if nothing else is left. -/
theorem trimFraction_point {whole fraction : List Char} (hwhole : whole.getLast? ≠ some '.')
    (hzero : fraction.getLast? ≠ some '0') (hpoint : '.' ∉ fraction) (zeros : Nat) :
    trimFraction (whole ++ '.' :: (fraction ++ List.replicate zeros '0')) =
      pointed whole fraction := by
  have hlast (hne : fraction ≠ []) : (whole ++ '.' :: fraction).getLast? = fraction.getLast? := by
    rw [List.getLast?_append_of_ne_nil _ (List.cons_ne_nil _ _), ← List.singleton_append,
      List.getLast?_append_of_ne_nil _ hne]
  have hkept : dropEnd '0' (whole ++ '.' :: fraction) = whole ++ '.' :: fraction := by
    apply dropEnd_of_getLast?
    by_cases hne : fraction = []
    · simp [hne]
    · rwa [hlast hne]
  rw [trimFraction, if_pos (List.mem_append_right _ (List.mem_cons_self ..)), ← List.cons_append,
    ← List.append_assoc, dropEnd_append_replicate, hkept, pointed]
  by_cases hne : fraction = []
  · rw [hne, if_pos List.isEmpty_nil, List.append_nil]
    exact (dropEnd_append_replicate '.' whole 1).trans (dropEnd_of_getLast? hwhole)
  · rw [if_neg (mt List.isEmpty_iff.1 hne)]
    refine dropEnd_of_getLast? ?_
    rw [hlast hne]
    exact fun h => hpoint (List.mem_of_getLast? h)

/-! ## The text with an exponent -/

section
variable {negative : Bool} {text : List Char} {c : Char}

/-- A sign adds a minus at most. -/
theorem mem_withSign : c ∈ withSign negative text → c = '-' ∨ c ∈ text := by
  cases negative
  · exact .inr
  · exact List.mem_cons.1

/-- The sign stays in front of what is added behind. -/
theorem withSign_append (negative : Bool) (text more : List Char) :
    withSign negative (text ++ more) = withSign negative text ++ more := by
  cases negative <;> rfl

/-- A sign is not at the end. -/
theorem getLast?_withSign (h : text ≠ []) : (withSign negative text).getLast? = text.getLast? := by
  cases negative
  · rfl
  · exact List.getLast?_cons_of_ne_nil h

/-- A text is split at the first mark. -/
theorem splitOnce?_append {before : List Char} (h : c ∉ before) (behind : List Char) :
    splitOnce? c (before ++ c :: behind) = some (before, behind) := by
  have hbefore : ∀ a ∈ before, (a != c) = true := by
    intro a ha
    rw [bne_iff_ne]
    exact fun hac => h (hac ▸ ha)
  unfold splitOnce?
  rw [List.dropWhile_append_of_pos hbefore, List.takeWhile_append_of_pos hbefore]
  simp

end

/-- A number that is written is read back, if it is not too large. -/
theorem parseDigits?_toDigits {n : Nat} (h : n < twoPow 64) :
    parseDigits? (Nat.toDigits 10 n) = some n := by
  have hall : (Nat.toDigits 10 n).all Char.isDigit = true := List.all_eq_true.2 (isDigit_toDigits n)
  have hne : (Nat.toDigits 10 n).isEmpty = false := List.isEmpty_eq_false_iff.2 Nat.toDigits_ne_nil
  unfold parseDigits?
  rw [hall, hne, digitsValue_toDigits, if_neg (by decide), if_pos h]

/-- The sign of a number that is written is read back. -/
theorem scanSign_withSign (negative : Bool) (n : Nat) :
    ExponentPart.scanSign (withSign negative (Nat.toDigits 10 n)) =
      (if negative then some '-' else none, Nat.toDigits 10 n) := by
  have hwell : (⟨'e', if negative then some '-' else none, Nat.toDigits 10 n⟩ :
      ExponentPart).WellFormed := by
    refine ⟨.inl rfl, fun c hc => .inr ?_, isDigit_toDigits n, Nat.toDigits_ne_nil⟩
    cases negative
    · cases hc
    · exact (Option.some.inj hc).symm
  have hscan := ExponentPart.scanSign_text hwell []
  rw [List.append_nil] at hscan
  cases negative <;> exact hscan

/-- An integer is read back, unless it is beyond thirty-two bits. -/
theorem parseInt32?_withSign {n : Int} (hlow : -twoPow 31 ≤ n) (hhigh : n < twoPow 31) :
    parseInt32? (withSign (decide (n < 0)) (Nat.toDigits 10 n.natAbs)) = some n := by
  have hrange : twoPow 31 < twoPow 64 := by decide
  have hvalue : (if (if decide (n < 0) then some '-' else none) = some '-' then -(n.natAbs : Int)
      else n.natAbs) = n := by
    by_cases hn : n < 0
    · rw [decide_eq_true hn, if_pos rfl, if_pos rfl]
      omega
    · rw [decide_eq_false hn, if_neg Bool.false_ne_true, if_neg (Option.some_ne_none _).symm]
      omega
  unfold parseInt32?
  rw [scanSign_withSign]
  dsimp only
  rw [parseDigits?_toDigits (by omega)]
  dsimp only
  rw [hvalue, if_pos ⟨hlow, hhigh⟩]

/-! ## Significant digits -/

/-- Numbers are positional from `0.0001` on, as long as the significant digits reach the point; an
exponent has its sign and at least two digits. -/
def significantLayout (digits : Nat) : Layout := ⟨-4, digits, false, true, 2⟩

section
variable {digits units : Nat} {negative : Bool}

/-- The digits of a ratio rounded to significant digits. -/
theorem length_toDigits_ofRatio {num den : Nat} (hdigits : 0 < digits) (hnum : 0 < num)
    (hden : 0 < den) :
    (Nat.toDigits 10 (Decimal.ofRatio digits num den).coefficient).length = digits := by
  obtain ⟨hlow, hhigh, -, -⟩ := Decimal.ofRatio_spec hdigits hnum hden
  have hle := (Nat.length_toDigits_le_iff (by decide) hdigits).2 hhigh
  rcases Nat.lt_or_ge 1 digits with hmore | hone
  · have hlt := mt (Nat.length_toDigits_le_iff (by decide) (Nat.sub_pos_of_lt hmore)).1
      (not_lt.2 hlow)
    omega
  · have hpos := Nat.length_toDigits_pos (b := 10)
      (n := (Decimal.ofRatio digits num den).coefficient)
    omega

/-- The exponent is that of the first digit, moved by the places, or one more if rounding carries.
-/
theorem ofRatio_exponent (digits num den : Nat) :
    (Decimal.ofRatio digits num den).exponent = leadingExponent num den - (digits - 1 : Nat) ∨
      (Decimal.ofRatio digits num den).exponent =
        leadingExponent num den - (digits - 1 : Nat) + 1 := by
  unfold Decimal.ofRatio
  dsimp only
  split
  · exact .inr rfl
  · exact .inl rfl

/-- A ratio between `2 ^ -r` and `2 ^ s` is between the same powers of ten. -/
theorem log_dyadic {den r s : Nat} (hden : den = twoPow r) (hpos : 0 < units)
    (hrange : units < den * twoPow s) :
    -(r : Int) ≤ Int.log 10 ((units : ℚ) / den) ∧ Int.log 10 ((units : ℚ) / den) < s := by
  have hpow (n : Nat) : (2 : ℚ) ^ n ≤ 10 ^ n := pow_le_pow_left₀ (by norm_num) (by norm_num) n
  have hden' : (den : ℚ) = 2 ^ r := hden ▸ cast_twoPow r
  have hdenpos : (0 : ℚ) < den := hden' ▸ pow_pos two_pos r
  have hq : (0 : ℚ) < units / den := div_pos (Nat.cast_pos.2 hpos) hdenpos
  constructor
  · refine (Int.zpow_le_iff_le_log (b := 10) (by decide) hq).1 ?_
    rw [zpow_neg, zpow_natCast, le_div_iff₀ hdenpos, inv_mul_le_iff₀ (pow_pos (by norm_num) r)]
    calc (den : ℚ) ≤ 10 ^ r := hden' ▸ hpow r
      _ ≤ 10 ^ r * units := le_mul_of_one_le_right (by positivity) (by exact_mod_cast hpos)
  · refine (Int.lt_zpow_iff_log_lt (b := 10) (by decide) hq).1 ?_
    rw [zpow_natCast, div_lt_iff₀ hdenpos]
    calc (units : ℚ) < den * twoPow s := by exact_mod_cast hrange
      _ ≤ 10 ^ s * den := by
        rw [mul_comm, cast_twoPow]
        exact mul_le_mul_of_nonneg_right (hpow s) hdenpos.le

/-- The first digit of a double is not far from the point. -/
theorem leadingExponent_units (hpos : 0 < units) (hrange : units < Binary64.overflow) :
    -1074 ≤ leadingExponent units Binary64.one ∧ leadingExponent units Binary64.one < 1024 := by
  rw [leadingExponent_eq hpos Binary64.one_pos]
  exact @log_dyadic _ _ 1074 1024 rfl hpos (hrange.trans_eq Binary64.overflow_eq)

/-- Digits with a point between them, trimmed: the zeros at their end stay in front of the point and
go behind it. -/
theorem trimFraction_digits {significant : List Char} {zeros places decimals : Nat}
    (hdigit : ∀ c ∈ significant, c.isDigit) (hlast : significant.getLast? ≠ some '0')
    (hplaces : 0 < places) (hlength : places + decimals = significant.length + zeros) :
    trimFraction (withSign negative ((significant ++ List.replicate zeros '0').take places ++
        if decimals = 0 then [] else
          '.' :: (significant ++ List.replicate zeros '0').drop places)) =
      withSign negative (pointed
        (significant.take places ++ List.replicate (places - significant.length) '0')
        (significant.drop places)) := by
  have htake : (significant ++ List.replicate zeros '0').take places =
      significant.take places ++ List.replicate (places - significant.length) '0' := by
    rw [List.take_append, List.take_replicate, Nat.min_eq_left (by omega)]
  have hdrop : (significant ++ List.replicate zeros '0').drop places =
      significant.drop places ++ List.replicate (zeros - (places - significant.length)) '0' := by
    rw [List.drop_append, List.drop_replicate]
  have hwhole : ∀ c ∈ significant.take places ++ List.replicate (places - significant.length) '0',
      c.isDigit := by
    intro c hc
    rcases List.mem_append.1 hc with hc | hc
    · exact hdigit c (List.mem_of_mem_take hc)
    · exact isDigit_zeros _ c hc
  have hne : significant.take places ++ List.replicate (places - significant.length) '0' ≠ [] := by
    rw [← List.length_pos_iff, List.length_append, List.length_take, List.length_replicate]
    omega
  rw [htake, hdrop]
  generalize significant.take places ++ List.replicate (places - significant.length) '0' = whole
    at hwhole hne ⊢
  by_cases hnone : decimals = 0
  · have hempty : significant.drop places = [] := List.drop_of_length_le (by omega)
    rw [if_pos hnone, hempty, pointed, if_pos List.isEmpty_nil, List.append_nil]
    refine trimFraction_of_not_mem fun hmem => ?_
    rcases mem_withSign hmem with hminus | hmem
    · exact absurd hminus (by decide)
    · exact not_mem_of_isDigit hwhole (by decide) hmem
  · have hbefore : (withSign negative whole).getLast? ≠ some '.' := by
      rw [getLast?_withSign hne]
      exact fun h => not_mem_of_isDigit hwhole (by decide) (List.mem_of_getLast? h)
    have hfraction : '.' ∉ significant.drop places :=
      not_mem_of_isDigit (fun c hc => hdigit c (List.mem_of_mem_drop hc)) (by decide)
    have hbehind : (significant.drop places).getLast? ≠ some '0' := by
      rw [List.getLast?_drop]
      split
      · exact (Option.some_ne_none _).symm
      · exact hlast
    rw [if_neg hnone, withSign_append, trimFraction_point hbefore hbehind hfraction, pointed,
      pointed, withSign_append]

/-! ## Both texts -/

variable {d : Decimal}

/-- The digits of a rounded ratio are significant ones and zeros that fill their count up. -/
theorem ofRatio_digits (hdigits : 0 < digits) (hunits : 0 < units)
    (hd : Decimal.ofRatio digits units Binary64.one = d) :
    ∃ significant zeros, SignificantDigits significant ∧ significant.length + zeros = digits ∧
      dropEndZeros (Nat.toDigits 10 d.coefficient) = significant ∧
      Nat.toDigits 10 d.coefficient = significant ++ List.replicate zeros '0' := by
  have hlength := length_toDigits_ofRatio hdigits hunits Binary64.one_pos
  have hpos := (Decimal.ofRatio_spec hdigits hunits Binary64.one_pos).1
  rw [hd] at hlength hpos
  obtain ⟨hsignificant, zeros, hzeros⟩ := toDigits_eq_append_zeros
    ((Nat.pow_pos (by decide)).trans_le hpos)
  rw [hzeros, List.length_append, List.length_replicate] at hlength
  exact ⟨_, zeros, hsignificant, hlength, rfl, hzeros⟩

/-- The text with an exponent is rounded to significant digits. -/
theorem exponentText_eq (hdigits : 0 < digits) (hunits : 0 < units)
    (hd : Decimal.ofRatio digits units Binary64.one = d) :
    exponentText (digits - 1) units =
      (Nat.toDigits 10 d.coefficient).take 1 ++
        (if digits - 1 = 0 then [] else '.' :: (Nat.toDigits 10 d.coefficient).drop 1) ++
        'e' :: withSign (decide (d.exponent + (digits - 1 : Nat) < 0))
          (Nat.toDigits 10 (d.exponent + (digits - 1 : Nat)).natAbs) := by
  have hlength := length_toDigits_ofRatio hdigits hunits Binary64.one_pos
  have hpos := (Decimal.ofRatio_spec hdigits hunits Binary64.one_pos).1
  rw [hd] at hlength hpos
  have hcoefficient : d.coefficient ≠ 0 := ((Nat.pow_pos (by decide)).trans_le hpos).ne'
  unfold exponentText
  rw [Nat.sub_add_cancel hdigits, hd]
  dsimp only
  rw [if_neg hcoefficient, paddedDigits, hlength, Nat.sub_self, List.replicate_zero,
    List.nil_append]

/-- With as many decimals as the significant digits leave, the other text is rounded to them. -/
theorem fixedText_eq (hdigits : 0 < digits) (hunits : 0 < units)
    (hd : Decimal.ofRatio digits units Binary64.one = d) {decimals places : Nat}
    (hexponent : d.exponent = -decimals) (hplaces : places + decimals = max (decimals + 1) digits) :
    fixedText decimals units =
      (List.replicate (decimals + 1 - digits) '0' ++ Nat.toDigits 10 d.coefficient).take places ++
        if decimals = 0 then [] else
          '.' :: (List.replicate (decimals + 1 - digits) '0' ++
            Nat.toDigits 10 d.coefficient).drop places := by
  have hlength := length_toDigits_ofRatio hdigits hunits Binary64.one_pos
  obtain ⟨-, -, hnear, -⟩ := Decimal.ofRatio_spec hdigits hunits Binary64.one_pos
  rw [hd] at hlength hnear
  have hrounded : roundHalfEven (units * tenPow decimals) Binary64.one = d.coefficient := by
    refine (roundHalfEven_nearest _ Binary64.one_pos).unique ?_
    rw [hexponent, zpow_neg, zpow_natCast, div_inv_eq_mul] at hnear
    rw [Nat.cast_mul, tenPow_eq, Nat.cast_pow, Nat.cast_ofNat, mul_div_right_comm]
    exact hnear
  have hall : (paddedDigits (decimals + 1) d.coefficient).length - decimals = places := by
    rw [length_paddedDigits, hlength]
    omega
  unfold fixedText
  rw [hrounded]
  dsimp only
  rw [hall, paddedDigits, hlength]

/-- Without a point and zero for whole numbers, the text is that of the literal. -/
theorem positional_eq_pointed {layout : Layout} (hpoint : layout.pointZero = false)
    (significant : List Char) (lead : Int) :
    layout.positional significant lead = pointed (positionalNumeral significant lead).whole
      (positionalNumeral significant lead).fraction := by
  rw [positional_eq_text hpoint]
  unfold positionalNumeral
  dsimp only
  generalize (if 0 ≤ lead then significant.drop _ else _) = fraction
  cases fraction <;> simp [Numeral.text, pointed]

/-- The decimals that are written leave as many digits as are significant. -/
theorem trimFraction_fixedText (hdigits : 0 < digits) (hunits : 0 < units)
    (hd : Decimal.ofRatio digits units Binary64.one = d) {lead : Int}
    (hlead : d.exponent + (digits - 1 : Nat) = lead) (hbelow : lead < digits) :
    trimFraction (withSign negative (fixedText (digits - 1 - lead).toNat units)) =
      withSign negative ((significantLayout digits).positional
        (dropEndZeros (Nat.toDigits 10 d.coefficient)) lead) := by
  obtain ⟨significant, zeros, hsignificant, hlength, hdrop, hzeros⟩ :=
    ofRatio_digits hdigits hunits hd
  obtain ⟨decimals, hdecimals⟩ := Int.eq_ofNat_of_zero_le (by omega : 0 ≤ digits - 1 - lead)
  have hsome := List.length_pos_iff.2 hsignificant.ne_nil
  have hfixed {places : Nat} := @fixedText_eq digits units d hdigits hunits hd decimals places
    (by omega)
  rw [hdecimals, Int.toNat_natCast, hdrop, positional_eq_pointed rfl, positionalNumeral]
  rw [hzeros] at hfixed
  dsimp only
  by_cases hwhole : 0 ≤ lead
  · have hnone : decimals + 1 - digits = 0 := by omega
    rw [hfixed (by omega : (lead + 1).toNat + decimals = _), hnone, List.replicate_zero,
      List.nil_append, trimFraction_digits hsignificant.isDigit hsignificant.last (by omega)
      (by omega), if_pos hwhole, if_pos hwhole]
  · -- the first place holds the zero in front of the point
    obtain ⟨padding, hpadding⟩ : ∃ padding, decimals + 1 - digits = padding + 1 :=
      ⟨(-lead - 1).toNat, by omega⟩
    have hbehind : (-lead - 1).toNat = padding := by omega
    have hdigit := hsignificant.isDigit_behind_zeros (padding + 1)
    have hlast := hsignificant.last_behind_zeros (padding + 1)
    have hall : (List.replicate (padding + 1) '0' ++ significant).length =
        padding + 1 + significant.length := by rw [List.length_append, List.length_replicate]
    rw [hfixed (by omega : 1 + decimals = _), hpadding, ← List.append_assoc,
      trimFraction_digits hdigit hlast one_pos (by omega), hall, if_neg hwhole, if_neg hwhole,
      hbehind, show 1 - (padding + 1 + significant.length) = 0 by omega]
    rfl

/-- The first of the digits and the others are trimmed. -/
theorem trimFraction_mantissa {significant : List Char} {zeros : Nat}
    (h : SignificantDigits significant) (hlength : significant.length + zeros = digits) :
    trimFraction (withSign negative ((significant ++ List.replicate zeros '0').take 1 ++
        if digits - 1 = 0 then [] else '.' :: (significant ++ List.replicate zeros '0').drop 1)) =
      withSign negative (pointed (significant.take 1) (significant.drop 1)) := by
  have hsome := List.length_pos_iff.2 h.ne_nil
  rw [trimFraction_digits h.isDigit h.last one_pos (by omega),
    show 1 - significant.length = 0 by omega, List.replicate_zero, List.append_nil]

/-- A mantissa has no exponent in it. -/
theorem not_mem_mantissa {text : List Char} (h : ∀ c ∈ text, c.isDigit) (decimals : Nat) :
    'e' ∉ withSign negative (text.take 1 ++ if decimals = 0 then [] else '.' :: text.drop 1) := by
  intro hmem
  rcases mem_withSign hmem with hminus | hmem
  · exact absurd hminus (by decide)
  rcases List.mem_append.1 hmem with hmem | hmem
  · exact not_mem_of_isDigit h (by decide) (List.mem_of_mem_take hmem)
  · split at hmem
    · cases hmem
    · rcases List.mem_cons.1 hmem with hpoint | hmem
      · exact absurd hpoint (by decide)
      · exact not_mem_of_isDigit h (by decide) (List.mem_of_mem_drop hmem)

/-- The result of both roundings is that of a single one. -/
theorem significantText_eq (hdigits : 0 < digits) (hunits : 0 < units)
    (hrange : units < Binary64.overflow) :
    significantText digits negative units = withSign negative
      ((significantLayout digits).text (Decimal.ofRatio digits units Binary64.one)) := by
  obtain ⟨d, hd⟩ : ∃ d, Decimal.ofRatio digits units Binary64.one = d := ⟨_, rfl⟩
  obtain ⟨significant, zeros, hsignificant, hlength, hdrop, hzeros⟩ :=
    ofRatio_digits hdigits hunits hd
  have hlead : d.exponent + ((Nat.toDigits 10 d.coefficient).length - 1 : Nat) =
      d.exponent + (digits - 1 : Nat) := by
    rw [hzeros, List.length_append, List.length_replicate, hlength]
  have hbounds := leadingExponent_units hunits hrange
  have hexponent := ofRatio_exponent digits units Binary64.one
  have hlimit : (twoPow 31 : Int) = 2147483648 := rfl
  unfold significantText Layout.text
  rw [exponentText_eq hdigits hunits hd, hd]
  rw [hd] at hexponent
  dsimp only
  rw [hlead, withSign_append, splitOnce?_append (not_mem_mantissa (isDigit_toDigits _) _), hdrop]
  generalize hl : d.exponent + (digits - 1 : Nat) = lead
  dsimp only
  rw [parseInt32?_withSign (by omega) (by omega), Option.getD_some]
  by_cases hpositional : -4 ≤ lead ∧ lead < digits
  · rw [if_neg (by omega), trimFraction_fixedText hdigits hunits hd hl hpositional.2, hdrop]
    exact congrArg _ (if_pos hpositional).symm
  · rw [if_pos (by omega), hzeros, trimFraction_mantissa hsignificant hlength, ← withSign_append]
    refine congrArg _ (Eq.trans ?_ (if_neg hpositional).symm)
    unfold Layout.scientific pointed
    by_cases hnegative : lead < 0
    · simp only [if_pos hnegative, significantLayout, List.append_assoc, List.cons_append,
        List.nil_append]
    · simp only [if_neg hnegative, significantLayout, if_true, List.append_assoc, List.cons_append,
        List.nil_append]

end

end Reckon
