import Reckon.Proofs.Doubles.Exact
import Reckon.Proofs.Formatting

/-!
# The text of a result

`renderNumber_exact` says what the text of a finite double is, in terms of the rational number that
the double is: the nearest whole number, if that is near enough and fits (`IsWhole`), and otherwise
the nearest number with fifteen significant digits, written without a zero too many, and with an
exponent where its first digit is too far from the point. The arithmetic of `renderNumber` on
doubles is exact and its two roundings are one, so nothing of either is left in the statement.
-/

namespace Reckon

/-! ## Whole numbers -/

/-- A whole number is nearer than the double nearest to `10 ^ -12`, and it is less than `2 ^ 63` on
either side of zero. -/
def IsWhole (q : ℚ) : Prop :=
  |q - roundAway q| < exactValue 1e-12 ∧ |roundAway q| < 2 ^ 63

/-- The value of the double zero is zero. -/
theorem exactValue_zero : exactValue 0 = 0 := by
  rw [exactValue_eq (by decide +kernel : Binary64.ofFloat 0 = .finite false 0), Nat.cast_zero,
    zero_div]
  rfl

/-- The distance within which a number is taken for a whole one is positive. -/
theorem wholeTolerance_pos : 0 < exactValue wholeTolerance := by
  rw [← exactValue_zero]
  exact (lt_iff_exactValue_lt (by decide +kernel) (by decide +kernel)).1 (by decide +kernel)

/-- The limit of the numbers that are taken for whole ones is a power of two. -/
theorem exactValue_wholeLimit : exactValue wholeLimit = 2 ^ 63 := by
  have hone : (Binary64.one : ℚ) ≠ 0 := (Nat.cast_pos.2 Binary64.one_pos).ne'
  have hunits : Binary64.ofFloat wholeLimit = .finite false (twoPow 63 * Binary64.one) := by
    decide +kernel
  rw [exactValue_eq hunits, signed_false, Nat.cast_mul, mul_div_cancel_right₀ _ hone, twoPow_eq,
    Nat.cast_pow, Nat.cast_ofNat]

/-- Zero is whole. -/
theorem isWhole_zero : IsWhole 0 := by
  have hzero : roundAway 0 = 0 := by
    rw [roundAway_of_nonneg le_rfl, round_zero]
  refine ⟨?_, ?_⟩
  · rw [hzero, Int.cast_zero, sub_zero, abs_zero]
    exact wholeTolerance_pos
  · rw [hzero]
    decide

section
variable {x : Float}

/-- The tests on doubles are those on values. -/
theorem isWhole_iff (hx : x.isFinite) :
    IsWhole (exactValue x) ↔ (x - Binary64.nearestWhole x).abs < wholeTolerance ∧
      (Binary64.nearestWhole x).abs < wholeLimit := by
  obtain ⟨hfinite, hwhole⟩ := exactValue_nearestWhole hx
  obtain ⟨hfinite', hdistance⟩ := exactValue_sub_nearestWhole hx
  obtain ⟨habs, hwhole'⟩ := exactValue_abs hfinite
  obtain ⟨habs', hdistance'⟩ := exactValue_abs hfinite'
  rw [lt_iff_exactValue_lt habs' (by decide +kernel), hdistance', hdistance,
    lt_iff_exactValue_lt habs (by decide +kernel), hwhole', hwhole, exactValue_wholeLimit]
  refine and_congr Iff.rfl ?_
  exact_mod_cast Iff.rfl

/-- A whole double is cut off to itself. -/
theorem toInt64_of_exactValue {z : Int} (hx : x.isFinite) (h : exactValue x = z) :
    Binary64.toInt64 x = Int64.ofIntClamp z := by
  obtain ⟨negative, units, hunits⟩ := exists_ofFloat_eq hx
  have hone : (0 : ℚ) < Binary64.one := Nat.cast_pos.2 Binary64.one_pos
  have hratio : (units : ℚ) / Binary64.one = (signed negative z : Int) := by
    rw [cast_signed, ← h, exactValue_eq hunits]
    cases negative
    · rfl
    · exact (neg_neg _).symm
  obtain ⟨n, hn⟩ := Int.eq_ofNat_of_zero_le (Int.cast_nonneg_iff.1
    (hratio ▸ div_nonneg (Nat.cast_nonneg units) hone.le : (0 : ℚ) ≤ (signed negative z : Int)))
  rw [hn, div_eq_iff hone.ne', Int.cast_natCast, ← Nat.cast_mul, Nat.cast_inj] at hratio
  rw [Binary64.toInt64, hunits]
  dsimp only
  rw [hratio, Nat.mul_div_cancel _ Binary64.one_pos, ← hn]
  cases negative
  · rfl
  · exact congrArg _ (neg_neg z)

/-- A number that is taken for a whole one is printed as that. -/
theorem renderNumber_whole (hx : x.isFinite) (h : IsWhole (exactValue x)) :
    renderNumber x = toString (roundAway (exactValue x)) ∧
      (Int64.ofIntClamp (roundAway (exactValue x))).toInt = roundAway (exactValue x) := by
  obtain ⟨negative, units, hunits⟩ := exists_ofFloat_eq hx
  obtain ⟨hfinite, hvalue⟩ := exactValue_nearestWhole hx
  obtain ⟨hlow, hhigh⟩ := abs_lt.1 h.2
  have hfits := Int64.toInt_ofIntClamp hlow.le (Int.le_of_lt_add_one hhigh)
  refine ⟨?_, hfits⟩
  rw [renderNumber, hunits]
  dsimp only
  rw [if_pos ((isWhole_iff hx).1 h), toInt64_of_exactValue hfinite hvalue]
  exact congrArg toString hfits

end

/-! ## Numbers that are not whole -/

/-- One digit stands in front of the point, and an exponent with a sign and at least two digits,
which are not more than two if they start with a zero, names the place of that digit. -/
structure Numeral.Scientific (n : Numeral) (lead : Int) : Prop where
  whole : n.whole.length = 1
  exponent : ∃ e, n.exponent = some e ∧ e.mark = 'e' ∧
    e.sign = some (if lead < 0 then '-' else '+') ∧ e.value = lead ∧ 2 ≤ e.digits.length ∧
    (e.digits.head? = some '0' → e.digits.length = 2)

section
variable {digits : Nat}

/-- A literal with one digit in front and that exponent is scientific. -/
theorem significantLayout_scientific {n : Numeral} {lead : Int} (hwhole : n.whole.length = 1)
    (hexponent : n.exponent = some ((significantLayout digits).exponentPart lead)) :
    n.Scientific lead := by
  refine ⟨hwhole, _, hexponent, rfl, ?_, (significantLayout digits).exponentPart_value lead, ?_, ?_⟩
  · show (if lead < 0 then some '-' else some '+') = _
    split <;> rfl
  · exact (le_max_left 2 _).trans_eq (length_paddedDigits _ _).symm
  · exact length_paddedDigits_of_zero _ _

/-- The text of a positive count of units with a count of significant digits. -/
theorem significantLayout_text {units : Nat} (hdigits : 0 < digits) (h : 0 < units) :
    ∃ (d : ℚ) (n : Numeral), 0 < d ∧ Significant digits (units / Binary64.one) d ∧
      (significantLayout digits).text (Decimal.ofRatio digits units Binary64.one) = n.text ∧
      n.WellFormed ∧ n.Trimmed ∧ n.decimal.value = d ∧
      (-4 ≤ Int.log 10 d → Int.log 10 d < digits → n.exponent = none) ∧
      (Int.log 10 d < -4 ∨ digits ≤ Int.log 10 d → n.Scientific (Int.log 10 d)) := by
  obtain ⟨hlow, -, -, hsignificant⟩ := Decimal.ofRatio_spec hdigits h Binary64.one_pos
  have hpositive : 0 < (Decimal.ofRatio digits units Binary64.one).coefficient :=
    (Nat.pow_pos (by decide)).trans_le hlow
  obtain ⟨n, htext, hwell, htrimmed, hvalue, hnear, hfar⟩ :=
    @Layout.text_spec (significantLayout digits) rfl _ hpositive
  exact ⟨_, n, Decimal.value_pos hpositive, hsignificant, htext, hwell, htrimmed, hvalue, hnear,
    fun h => significantLayout_scientific (hfar h).1 (hfar h).2⟩

end

section
variable {x : Float}

/-- A double that is not near enough to a whole number is written with the sign and the digits of
its units. -/
theorem renderNumber_layout {negative : Bool} {units : Nat}
    (hunits : Binary64.ofFloat x = .finite negative units) (hx : x.isFinite)
    (h : ¬ IsWhole (exactValue x)) :
    0 < units ∧ renderNumber x = String.ofList
      (withSign negative
        ((significantLayout 15).text (Decimal.ofRatio 15 units Binary64.one))) := by
  have hpositive : 0 < units := by
    refine Nat.pos_of_ne_zero fun hzero => h ?_
    have hnone : signed negative (0 : ℚ) = 0 := by cases negative <;> simp
    rw [exactValue_eq hunits, hzero, Nat.cast_zero, zero_div, hnone]
    exact isWhole_zero
  refine ⟨hpositive, ?_⟩
  rw [renderNumber, hunits]
  dsimp only
  rw [if_neg (mt (isWhole_iff hx).2 h),
    significantText_eq (by decide) hpositive (units_lt hunits), significantDigits]

/-- The text of a finite double that is not near enough to a whole number. -/
theorem renderNumber_significant (hx : x.isFinite) (h : ¬ IsWhole (exactValue x)) :
    ∃ (d : ℚ) (n : Numeral), Significant 15 (exactValue x) d ∧
      renderNumber x = (if exactValue x < 0 then "-" else "") ++ String.ofList n.text ∧
      n.WellFormed ∧ n.Trimmed ∧ n.decimal.value = |d| ∧
      (-4 ≤ Int.log 10 |d| → Int.log 10 |d| < 15 → n.exponent = none) ∧
      (Int.log 10 |d| < -4 ∨ 15 ≤ Int.log 10 |d| → n.Scientific (Int.log 10 |d|)) := by
  obtain ⟨negative, units, hunits⟩ := exists_ofFloat_eq hx
  obtain ⟨hpositive, htext⟩ := renderNumber_layout hunits hx h
  obtain ⟨d, n, hd, hsignificant, hdigits, hwell, htrimmed, hdenotes, hnear, hfar⟩ :=
    significantLayout_text (by decide : 0 < 15) hpositive
  have hvalue := exactValue_eq hunits
  have hunit : (0 : ℚ) < units / Binary64.one :=
    div_pos (Nat.cast_pos.2 hpositive) (Nat.cast_pos.2 Binary64.one_pos)
  have habs : |signed negative d| = d := by rw [abs_signed, abs_of_pos hd]
  refine ⟨signed negative d, n, hvalue ▸ hsignificant.signed hunit negative, ?_, hwell, htrimmed,
    habs.symm ▸ hdenotes, habs.symm ▸ hnear, habs.symm ▸ hfar⟩
  rw [htext, hdigits, hvalue]
  simp only [signed_lt_zero hunit]
  cases negative
  · rfl
  · exact String.ofList_cons

end

/-- The text of a finite double. If it is near enough to a whole number that fits, the text is that
whole number, which is what it is as a machine integer too. Otherwise the text is a literal for the
nearest number with fifteen significant digits, with no zero that could be left out; it has an
exponent if the first of these digits stands further behind the point than the fourth place or
counts at least `10 ^ 15`. -/
theorem renderNumber_exact {x : Float} (hx : x.isFinite) :
    (IsWhole (exactValue x) →
      renderNumber x = toString (roundAway (exactValue x)) ∧
        (Int64.ofIntClamp (roundAway (exactValue x))).toInt = roundAway (exactValue x)) ∧
    (¬ IsWhole (exactValue x) →
      ∃ (d : ℚ) (n : Numeral), Significant 15 (exactValue x) d ∧
        renderNumber x = (if exactValue x < 0 then "-" else "") ++ String.ofList n.text ∧
        n.WellFormed ∧ n.Trimmed ∧ n.decimal.value = |d| ∧
        (-4 ≤ Int.log 10 |d| → Int.log 10 |d| < 15 → n.exponent = none) ∧
        (Int.log 10 |d| < -4 ∨ 15 ≤ Int.log 10 |d| → n.Scientific (Int.log 10 |d|))) :=
  ⟨renderNumber_whole hx, renderNumber_significant hx⟩

/-- A number next to two. -/
theorem renderNumber_exact_two :
    (2.0000000000001 : Float).isFinite ∧ IsWhole (exactValue 2.0000000000001) ∧
      renderNumber 2.0000000000001 = "2" := by
  have hfinite : (2.0000000000001 : Float).isFinite := by decide +kernel
  have hwhole : IsWhole (exactValue 2.0000000000001) := (isWhole_iff hfinite).2 (by decide +kernel)
  have hunits : Binary64.ofFloat (Binary64.nearestWhole 2.0000000000001) =
      .finite false (2 * Binary64.one) := by decide +kernel
  have htwo : (roundAway (exactValue 2.0000000000001) : ℚ) = 2 := by
    have hone : (Binary64.one : ℚ) ≠ 0 := (Nat.cast_pos.2 Binary64.one_pos).ne'
    rw [← (exactValue_nearestWhole hfinite).2, exactValue_eq hunits, signed_false, Nat.cast_mul,
      mul_div_cancel_right₀ _ hone, Nat.cast_ofNat]
  have hround : roundAway (exactValue 2.0000000000001) = 2 := by exact_mod_cast htwo
  refine ⟨hfinite, hwhole, ((renderNumber_exact hfinite).1 hwhole).1.trans ?_⟩
  rw [hround]
  rfl

end Reckon
