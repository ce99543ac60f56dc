import Reckon.Proofs.Digits
import Reckon.Proofs.Literal.Longest
import Reckon.Proofs.Rendering.Order

/-!
# The form of a result

`ResultText.pattern` is the form of the text of a finite result as a regular expression: no zero
that could be left out, and an exponent of two or three digits with its sign. The text is a numeral
of this form, behind a minus sign or without one (`exists_rendered`), with no more than fifteen
significant digits if it has a point or an exponent: its value is a number with so many digits, and
it ends in no zero. What stands behind the sign depends on the magnitude alone
(`renderNumber_unsigned`), so the text of the opposite differs in the sign, unless the value is so
near to zero that both texts are that of zero (`renderNumber_canonical`).
-/

namespace Reckon

open RegularExpression (char star)
open Literal (oneOf optional digit)

/-! ## The pattern -/

namespace ResultText

/-- A digit other than zero. -/
def leading : RegularExpression Char :=
  oneOf ['1', '2', '3', '4', '5', '6', '7', '8', '9']

/-- A zero, or digits of which the first is not a zero. -/
def whole : RegularExpression Char :=
  char '0' + leading * star digit

/-- A point and digits of which the last is not a zero. -/
def fraction : RegularExpression Char :=
  char '.' * star digit * leading

/-- A mark, a sign, and two or three digits. -/
def exponent : RegularExpression Char :=
  char 'e' * oneOf ['+', '-'] * (digit * digit * optional digit)

/-- The form of a finite result. -/
def pattern : RegularExpression Char :=
  optional (char '-') * whole * optional fraction * optional exponent

/-- The nine characters are the digits but zero. -/
theorem mem_leading_iff {c : Char} :
    c ∈ ['1', '2', '3', '4', '5', '6', '7', '8', '9'] ↔ c.isDigit ∧ c ≠ '0' := by
  rw [← Literal.mem_digits_iff, List.mem_cons (b := '0')]
  constructor
  · intro h
    refine ⟨.inr h, ?_⟩
    rintro rfl
    exact absurd h (by decide)
  · rintro ⟨rfl | h, hzero⟩
    · exact absurd rfl hzero
    · exact h

/-- A digit is a word of one digit. -/
theorem mem_digit {c : Char} (h : c.isDigit) : [c] ∈ digit.matches' :=
  Literal.mem_oneOf.2 ⟨c, Literal.mem_digits_iff.2 h, rfl⟩

/-- A digit other than zero may lead. -/
theorem mem_leading {c : Char} (h : c.isDigit) (hzero : c ≠ '0') : [c] ∈ leading.matches' :=
  Literal.mem_oneOf.2 ⟨c, mem_leading_iff.2 ⟨h, hzero⟩, rfl⟩

variable {text : List Char}

/-- Digits that do not lead with a zero are a whole number. -/
theorem mem_whole (h : ∀ c ∈ text, c.isDigit) (hne : text ≠ [])
    (hfirst : text.head? = some '0' → text = ['0']) : text ∈ whole.matches' := by
  obtain ⟨c, rest, rfl⟩ := List.exists_cons_of_ne_nil hne
  obtain ⟨hc, hrest⟩ := List.forall_mem_cons.1 h
  by_cases hzero : c = '0'
  · exact Literal.mem_add.2 (.inl (hfirst (congrArg some hzero)))
  · exact Literal.mem_add.2 (.inr (Literal.mem_mul.2
      ⟨[c], mem_leading hc hzero, rest, Literal.mem_star_digit.2 hrest, rfl⟩))

/-- Digits that do not end in a zero are a fraction. -/
theorem mem_fraction (h : ∀ c ∈ text, c.isDigit) (hne : text ≠ [])
    (hlast : text.getLast? ≠ some '0') : '.' :: text ∈ fraction.matches' := by
  obtain ⟨front, c, rfl⟩ := (List.eq_nil_or_concat text).resolve_left hne
  rw [List.concat_eq_append] at h hlast ⊢
  rw [List.getLast?_concat] at hlast
  have hfront : '.' :: front ∈ (char '.' * star digit).matches' :=
    Literal.mem_mul.2 ⟨['.'], rfl, front,
      Literal.mem_star_digit.2 fun c hc => h c (List.mem_append_left _ hc), rfl⟩
  exact Literal.mem_mul.2 ⟨_, hfront, [c],
    mem_leading (h c List.mem_concat_self) fun hzero => hlast (congrArg some hzero), rfl⟩

/-- An exponent has a sign and two or three digits. -/
theorem mem_exponent {e : ExponentPart} (h : e.WellFormed) (hmark : e.mark = 'e')
    (hsign : e.sign.isSome) (hlength : e.digits.length = 2 ∨ e.digits.length = 3) :
    e.text ∈ exponent.matches' := by
  obtain ⟨mark, sign, digits⟩ := e
  obtain ⟨s, rfl⟩ := Option.isSome_iff_exists.1 hsign
  obtain rfl : mark = 'e' := hmark
  have hs : [s] ∈ (oneOf ['+', '-']).matches' :=
    Literal.mem_oneOf.2 ⟨s, by simpa using h.sign s rfl, rfl⟩
  have hdigits : digits ∈ (digit * digit * optional digit).matches' := by
    have hall := h.digits
    rcases hlength with hlength | hlength
    · obtain ⟨a, b, rfl⟩ := List.length_eq_two.1 hlength
      exact Literal.mem_mul.2 ⟨[a, b], Literal.mem_mul.2
        ⟨[a], mem_digit (hall a (by simp)), [b], mem_digit (hall b (by simp)), rfl⟩,
        [], Literal.mem_optional.2 (.inr rfl), rfl⟩
    · obtain ⟨a, b, c, rfl⟩ := List.length_eq_three.1 hlength
      exact Literal.mem_mul.2 ⟨[a, b], Literal.mem_mul.2
        ⟨[a], mem_digit (hall a (by simp)), [b], mem_digit (hall b (by simp)), rfl⟩,
        [c], Literal.mem_optional.2 (.inl (mem_digit (hall c (by simp)))), rfl⟩
  exact Literal.mem_mul.2 ⟨['e', s], Literal.mem_mul.2 ⟨['e'], rfl, [s], hs, rfl⟩, digits, hdigits,
    rfl⟩

end ResultText

/-! ## The numeral of a result -/

/-- A numeral in the form of a result: trimmed, with one digit other than zero in front of an
exponent, an exponent with its sign and two or three digits, and no more than fifteen significant
digits if it has a point or an exponent. -/
structure Numeral.Rendered (n : Numeral) : Prop where
  wellFormed : n.WellFormed
  trimmed : n.Trimmed
  leading : n.exponent ≠ none → ∃ c ∈ ['1', '2', '3', '4', '5', '6', '7', '8', '9'], n.whole = [c]
  exponent : ∀ e ∈ n.exponent,
    e.mark = 'e' ∧ e.sign.isSome ∧ (e.digits.length = 2 ∨ e.digits.length = 3)
  significant : n.point ∨ n.exponent ≠ none → n.significant.length ≤ 15

/-- The literals that are printed have the pattern. -/
theorem Numeral.Rendered.mem_pattern {n : Numeral} (h : n.Rendered) (negative : Bool) :
    withSign negative n.text ∈ ResultText.pattern.matches' := by
  obtain ⟨hn, htrimmed, -, hexponent, -⟩ := h
  have hsign : withSign negative [] ∈ (optional (char '-')).matches' := by
    cases negative
    · exact Literal.mem_optional.2 (.inr rfl)
    · exact Literal.mem_optional.2 (.inl rfl)
  have hwhole := ResultText.mem_whole hn.whole htrimmed.whole htrimmed.first
  have hfraction : (if n.point then ['.'] else []) ++ n.fraction ∈
      (optional ResultText.fraction).matches' := by
    cases hpoint : n.point with
    | false => exact Literal.mem_optional.2 (.inr (hn.point hpoint))
    | true =>
      obtain ⟨hne, hlast⟩ := htrimmed.last hpoint
      exact Literal.mem_optional.2 (.inl (ResultText.mem_fraction hn.fraction hne hlast))
  have hbehind : (n.exponent.map ExponentPart.text).getD [] ∈
      (optional ResultText.exponent).matches' := by
    cases he : n.exponent with
    | none => exact Literal.mem_optional.2 (.inr rfl)
    | some e =>
      obtain ⟨hmark, hsome, hlength⟩ := hexponent e he
      exact Literal.mem_optional.2
        (.inl (ResultText.mem_exponent (hn.exponent e he) hmark hsome hlength))
  have htext : withSign negative [] ++ n.whole ++ ((if n.point then ['.'] else []) ++ n.fraction) ++
      (n.exponent.map ExponentPart.text).getD [] = withSign negative n.text := by
    rw [List.append_assoc, List.append_assoc, ← withSign_append, text]
    simp only [List.nil_append, List.append_assoc]
  rw [← htext]
  exact Literal.mem_mul.2 ⟨_, Literal.mem_mul.2 ⟨_, Literal.mem_mul.2
    ⟨_, hsign, _, hwhole, rfl⟩, _, hfraction, rfl⟩, _, hbehind, rfl⟩

/-- The literal of a whole number has this form. -/
theorem Numeral.ofNat_rendered (k : Nat) : (ofNat k).Rendered := by
  refine ⟨ofNat_wellFormed k, ⟨Nat.toDigits_ne_nil, fun hzero => ?_, nofun⟩,
    fun hnone => absurd rfl hnone, nofun, fun hsome => ?_⟩
  · rcases Nat.eq_zero_or_pos k with rfl | hpos
    · rfl
    · exact absurd hzero (head?_toDigits_ne hpos)
  · rcases hsome with hpoint | hnone
    · cases hpoint
    · exact absurd rfl hnone

/-! ## Numbers that are not whole -/

/-- Rounding leaves the place of the first digit, or carries into the next one. -/
theorem Significant.log_bounds {digits : Nat} {q d : ℚ} (h : Significant digits q d)
    (hdigits : 0 < digits) (hq : q ≠ 0) :
    Int.log 10 |q| ≤ Int.log 10 |d| ∧ Int.log 10 |d| ≤ Int.log 10 |q| + 1 := by
  have hten : (10 : ℚ) ≠ 0 := by norm_num
  have hpos := h.pos hdigits hq
  obtain ⟨n, -, hd, hlow, hhigh⟩ := h.exists_coefficient hdigits hq
  have hunit : (0 : ℚ) ≤ 10 ^ lastPlace digits q := zpow_nonneg (by norm_num) _
  have hlast : lastPlace digits q = Int.log 10 |q| - (digits - 1 : Nat) := rfl
  constructor
  · refine (Int.zpow_le_iff_le_log (b := 10) (by decide) hpos).1 ?_
    calc ((10 : Nat) : ℚ) ^ Int.log 10 |q|
        = 10 ^ (digits - 1) * 10 ^ lastPlace digits q := by
          rw [Nat.cast_ofNat, ← zpow_natCast, ← zpow_add₀ hten]
          congr 1
          omega
      _ ≤ n * 10 ^ lastPlace digits q :=
          mul_le_mul_of_nonneg_right (by exact_mod_cast hlow) hunit
      _ = |d| := hd.symm
  · refine Int.lt_add_one_iff.1 ((Int.lt_zpow_iff_log_lt (b := 10) (by decide) hpos).1 ?_)
    calc |d| = n * 10 ^ lastPlace digits q := hd
      _ ≤ 10 ^ digits * 10 ^ lastPlace digits q :=
          mul_le_mul_of_nonneg_right (by exact_mod_cast hhigh) hunit
      _ = ((10 : Nat) : ℚ) ^ (Int.log 10 |q| + 1) := by
          rw [Nat.cast_ofNat, ← zpow_natCast, ← zpow_add₀ hten]
          congr 1
          omega
      _ < ((10 : Nat) : ℚ) ^ (Int.log 10 |q| + 1 + 1) :=
          zpow_lt_zpow_right₀ (by norm_num) (Int.lt_succ _)

/-- The first digit of a double is not further behind the point than place three hundred and
twenty-four, and not further in front of it than place three hundred and nine. -/
theorem log_exactValue_bounds {x : Float} (hx : x.isFinite) (hne : exactValue x ≠ 0) :
    -324 ≤ Int.log 10 |exactValue x| ∧ Int.log 10 |exactValue x| < 309 := by
  have hpos := abs_pos.2 hne
  constructor
  · obtain ⟨negative, units, hunits⟩ := exists_ofFloat_eq hx
    have hvalue := exactValue_eq hunits
    have hone : (0 : ℚ) < Binary64.one := Nat.cast_pos.2 Binary64.one_pos
    have hunit : 1 ≤ units := by
      refine Nat.pos_of_ne_zero fun hzero => hne ?_
      rw [hvalue, hzero, Nat.cast_zero, zero_div]
      cases negative <;> simp
    have hpow : (Binary64.one : ℚ) ≤ (10 ^ 324 : Nat) := Nat.cast_le.2 (by decide +kernel)
    refine (Int.zpow_le_iff_le_log (b := 10) (by decide) hpos).1 ?_
    rw [hvalue, abs_signed, abs_of_nonneg (div_nonneg (Nat.cast_nonneg _) hone.le),
      le_div_iff₀ hone, zpow_neg, zpow_ofNat, Nat.cast_ofNat, inv_mul_le_iff₀ (by positivity)]
    calc (Binary64.one : ℚ) ≤ (10 ^ 324 : Nat) := hpow
      _ = 10 ^ 324 := by rw [Nat.cast_pow, Nat.cast_ofNat]
      _ ≤ 10 ^ 324 * units := le_mul_of_one_le_right (by positivity) (by exact_mod_cast hunit)
  · refine (Int.lt_zpow_iff_log_lt (b := 10) (by decide) hpos).1 ?_
    rw [Nat.cast_ofNat, zpow_ofNat]
    exact (abs_exactValue_lt hx).trans_le two_pow_le_ten_pow

/-- The place of the first digit is that of the digit in front of the point, so this is not zero. -/
theorem Numeral.leading_of_log {n : Numeral} {c : Char} (hn : n.WellFormed) (hwhole : n.whole = [c])
    (hlog : 10 ^ (n.exponent.map ExponentPart.value).getD 0 ≤ n.decimal.value) : c ≠ '0' := by
  rintro rfl
  have hten : (10 : ℚ) ≠ 0 := by norm_num
  have hzero : digitsValue ['0'] = 0 := rfl
  have hdigits : digitsValue (n.whole ++ n.fraction) < 10 ^ n.fraction.length := by
    rw [hwhole, digitsValue_append, hzero, Nat.zero_mul, Nat.zero_add]
    exact digitsValue_lt hn.fraction
  rw [decimal, Decimal.value, zpow_sub₀ hten, zpow_natCast, mul_div_left_comm] at hlog
  have hunit : (0 : ℚ) < 10 ^ (n.exponent.map ExponentPart.value).getD 0 :=
    zpow_pos (by norm_num) _
  have hone := (le_mul_iff_one_le_right hunit).1 hlog
  rw [one_le_div (by positivity)] at hone
  have hle : 10 ^ n.fraction.length ≤ digitsValue (n.whole ++ n.fraction) := by exact_mod_cast hone
  omega

/-- An exponent below one thousand, with a zero in front only where it has two digits. -/
theorem ExponentPart.WellFormed.length_digits {e : ExponentPart} (h : e.WellFormed)
    (htwo : 2 ≤ e.digits.length) (hzero : e.digits.head? = some '0' → e.digits.length = 2)
    (hrange : e.value.natAbs < 1000) : e.digits.length = 2 ∨ e.digits.length = 3 := by
  by_cases hfirst : e.digits.head? = some '0'
  · exact .inl (hzero hfirst)
  · have hvalue : e.value.natAbs = digitsValue e.digits := by
      unfold value
      split <;> omega
    have hthree : e.digits.length ≤ 3 :=
      length_le_of_digitsValue_lt (k := 3) h.digits hfirst (by omega)
    omega

section
variable {x : Float}

/-- The text of a finite double is a numeral of this form, behind a minus sign or without one. -/
theorem exists_rendered (hx : x.isFinite) :
    ∃ negative n, Numeral.Rendered n ∧ (renderNumber x).toList = withSign negative n.text := by
  by_cases hwhole : IsWhole (exactValue x)
  · refine ⟨decide (roundAway (exactValue x) < 0),
      .ofNat (roundAway (exactValue x)).natAbs, Numeral.ofNat_rendered _, ?_⟩
    rw [(renderNumber_whole hx hwhole).1, toList_toString]
  obtain ⟨d, n, hsignificant, htext, hn, htrimmed, hvalue, hnear, hfar⟩ :=
    renderNumber_significant hx hwhole
  have hne : exactValue x ≠ 0 := fun hzero => hwhole (hzero ▸ isWhole_zero)
  obtain ⟨hlow, hhigh⟩ := log_exactValue_bounds hx hne
  obtain ⟨hlow', hhigh'⟩ := hsignificant.log_bounds (by decide) hne
  have hscientific (h : n.exponent ≠ none) : n.Scientific (Int.log 10 |d|) := by
    refine hfar ?_
    by_contra hbetween
    exact h (hnear (by omega) (by omega))
  refine ⟨decide (exactValue x < 0), n, ⟨hn, htrimmed, fun h => ?_, fun e he => ?_, fun h => ?_⟩,
    by rw [htext, toList_sign]⟩
  · obtain ⟨hlength, e, he, -, -, hlead, -, -⟩ := hscientific h
    obtain ⟨c, hc⟩ := List.length_eq_one_iff.1 hlength
    have hdigit : c.isDigit := hn.whole c (by rw [hc]; exact List.mem_singleton_self c)
    refine ⟨c, ResultText.mem_leading_iff.2 ⟨hdigit, Numeral.leading_of_log hn hc ?_⟩, hc⟩
    rw [he, Option.map_some, Option.getD_some, hlead, hvalue]
    exact_mod_cast Int.zpow_log_le_self (b := 10) (by decide) (hsignificant.pos (by decide) hne)
  · obtain ⟨-, e', he', hmark, hsign, hlead, htwo, hzero⟩ :=
      hscientific (by rw [he]; exact Option.some_ne_none e)
    obtain rfl : e = e' := Option.some.inj (he.symm.trans he')
    exact ⟨hmark, by rw [hsign]; rfl, (hn.exponent e he).length_digits htwo hzero (by omega)⟩
  · cases hpoint : n.point with
    | true =>
      -- the digits end in no zero and stand for the fifteen that are rounded to
      obtain ⟨hfraction, hlast⟩ := htrimmed.last hpoint
      obtain ⟨m, -, hd, -, hm⟩ := hsignificant.exists_coefficient (by decide) hne
      refine Numeral.length_significant_le hn
        (Decimal.coefficient_lt ?_ (hvalue.trans hd) hm (by decide))
      have hsome : n.whole ++ n.fraction ≠ [] := List.append_ne_nil_of_right_ne_nil _ hfraction
      refine digitsValue_mod_ten (fun c hc => ?_) hsome ?_
      · exact (List.mem_append.1 hc).elim (hn.whole c) (hn.fraction c)
      · rwa [List.getLast?_append_of_ne_nil _ hfraction]
    | false =>
      have hexponent : n.exponent ≠ none :=
        h.resolve_left (by rw [hpoint]; exact Bool.false_ne_true)
      have hlength := (hscientific hexponent).whole
      have hle : n.significant.length ≤ (n.whole ++ n.fraction).length :=
        (List.dropWhile_sublist _).length_le
      rw [hn.point hpoint, List.append_nil, hlength] at hle
      omega

/-! ## Opposite numbers -/

/-- The numbers that are written as zero. -/
theorem isWhole_of_abs_lt {q : ℚ} (h : |q| < exactValue wholeTolerance) :
    IsWhole q ∧ roundAway q = 0 := by
  have hzero : roundAway q = 0 := by
    refine roundAway_eq ?_
    rw [Int.cast_zero, sub_zero]
    exact h.trans wholeTolerance_lt
  refine ⟨⟨?_, ?_⟩, hzero⟩
  · rwa [hzero, Int.cast_zero, sub_zero]
  · rw [hzero]
    decide

/-- Numbers next to zero are printed as zero, without a sign. -/
theorem renderNumber_zero (hx : x.isFinite) (h : |exactValue x| < exactValue wholeTolerance) :
    renderNumber x = "0" := by
  obtain ⟨hwhole, hzero⟩ := isWhole_of_abs_lt h
  rw [(renderNumber_whole hx hwhole).1, hzero]
  rfl

/-- A whole number other than zero has the sign of what it is near to. -/
theorem IsWhole.lt_zero_iff {q : ℚ} (h : IsWhole q) (hfar : exactValue wholeTolerance ≤ |q|) :
    (roundAway q < 0 ↔ q < 0) ∧ (-roundAway q < 0 ↔ 0 < q) := by
  obtain ⟨hlow, hhigh⟩ := abs_lt.1 h.dist_lt
  have hnear := h.1
  generalize roundAway q = z at hlow hhigh hnear
  rcases lt_trichotomy z 0 with hz | rfl | hz
  · have hone : (z : ℚ) ≤ -1 := by exact_mod_cast Int.le_sub_one_of_lt hz
    exact ⟨iff_of_true hz (by linarith), iff_of_false (by omega) (by linarith)⟩
  · rw [Int.cast_zero, sub_zero] at hnear
    exact absurd hnear (not_lt.2 hfar)
  · have hone : (1 : ℚ) ≤ z := by exact_mod_cast hz
    exact ⟨iff_of_false (by omega) (by linarith), iff_of_true (by omega) (by linarith)⟩

/-- What stands behind the sign is the same for the opposite number, if it is not written as
zero. -/
theorem renderNumber_unsigned (hx : x.isFinite)
    (h : exactValue wholeTolerance ≤ |exactValue x|) :
    ∃ text,
      renderNumber x = String.ofList (withSign (decide (exactValue x < 0)) text) ∧
      renderNumber (-x) = String.ofList (withSign (decide (0 < exactValue x)) text) := by
  obtain ⟨hfinite, hopposite⟩ := exactValue_neg hx
  by_cases hwhole : IsWhole (exactValue x)
  · have hwhole' : IsWhole (exactValue (-x)) := hopposite ▸ hwhole.neg
    have hsame := toList_toString (-roundAway (exactValue x))
    rw [Int.natAbs_neg] at hsame
    obtain ⟨hnegative, hpositive⟩ := hwhole.lt_zero_iff h
    refine ⟨(Numeral.ofNat (roundAway (exactValue x)).natAbs).text, ?_, ?_⟩
    · rw [(renderNumber_whole hx hwhole).1, ← String.toList_inj, toList_toString,
        String.toList_ofList]
      simp only [hnegative]
    · rw [(renderNumber_whole hfinite hwhole').1, hopposite, roundAway_neg, ← String.toList_inj,
        hsame, String.toList_ofList]
      simp only [hpositive]
  · have hwhole' : ¬ IsWhole (exactValue (-x)) := fun hneg =>
      hwhole (neg_neg (exactValue x) ▸ hopposite ▸ hneg.neg)
    obtain ⟨negative, units, hunits⟩ := exists_ofFloat_eq hx
    obtain ⟨hpos, htext⟩ := renderNumber_layout hunits hx hwhole
    obtain ⟨-, htext'⟩ := renderNumber_layout (ofFloat_neg hunits) hfinite hwhole'
    have hunit : (0 : ℚ) < units / Binary64.one :=
      div_pos (Nat.cast_pos.2 hpos) (Nat.cast_pos.2 Binary64.one_pos)
    have hsign : exactValue x < 0 ↔ negative = true := by
      rw [exactValue_eq hunits]
      exact signed_lt_zero hunit negative
    have hsign' : 0 < exactValue x ↔ (!negative) = true := by
      rw [exactValue_eq hunits]
      cases negative
      · exact iff_of_true hunit rfl
      · exact iff_of_false (not_lt.2 (neg_nonpos.2 hunit.le)) Bool.false_ne_true
    refine ⟨(significantLayout 15).text (Decimal.ofRatio 15 units Binary64.one), ?_, ?_⟩
    · simp only [htext, hsign, Bool.decide_eq_true]
    · simp only [htext', hsign', Bool.decide_eq_true]

/-- The text of a finite double has the form of a result: no zero that could be left out, one digit
other than zero in front of the point of a text with an exponent, no more than fifteen significant
digits where there is a point or an exponent, and no minus sign in front of a lone zero. The text of
the opposite number has a minus sign more, or one less, and differs in nothing else; only below the
tolerance of whole numbers both are the text of zero. -/
theorem renderNumber_canonical (hx : x.isFinite) :
    (renderNumber x).toList ∈ ResultText.pattern.matches' ∧
    (∃ negative n, Numeral.WellFormed n ∧ (renderNumber x).toList = withSign negative n.text ∧
      (n.exponent ≠ none →
        ∃ c ∈ ['1', '2', '3', '4', '5', '6', '7', '8', '9'], n.whole = [c]) ∧
      (n.point ∨ n.exponent ≠ none → n.significant.length ≤ 15)) ∧
    renderNumber x ≠ "-0" ∧
    (|exactValue x| < exactValue wholeTolerance → renderNumber x = "0" ∧ renderNumber (-x) = "0") ∧
    (exactValue wholeTolerance ≤ exactValue x → renderNumber (-x) = "-" ++ renderNumber x) ∧
    (exactValue x ≤ -exactValue wholeTolerance → renderNumber x = "-" ++ renderNumber (-x)) := by
  obtain ⟨negative, n, hn, htext⟩ := exists_rendered hx
  obtain ⟨hfinite, hopposite⟩ := exactValue_neg hx
  have htolerance := wholeTolerance_pos
  have hminus (text : List Char) :
      String.ofList (withSign true text) = "-" ++ String.ofList (withSign false text) :=
    String.ofList_cons
  refine ⟨htext ▸ hn.mem_pattern negative,
    ⟨negative, n, hn.wellFormed, htext, hn.leading, hn.significant⟩, fun hzero => ?_,
    fun hnear => ⟨renderNumber_zero hx hnear, renderNumber_zero hfinite ?_⟩, fun hfar => ?_,
    fun hfar => ?_⟩
  · -- a literal behind a minus sign is not zero, and the text is but one literal
    obtain ⟨negative, n, hn, htext, hpos, -⟩ := renderNumber_literal hx
    have hsame : withSign negative n.text = withSign true (Numeral.ofNat 0).text := by
      rw [← htext, hzero]
      rfl
    obtain ⟨rfl, rfl⟩ := withSign_injective hn (Numeral.ofNat_wellFormed 0) hsame
    have hless := hpos rfl
    rw [Numeral.ofNat_value] at hless
    exact absurd hless (by norm_num)
  · rwa [hopposite, abs_neg]
  · have hpos := htolerance.trans_le hfar
    obtain ⟨text, hx, hneg⟩ := renderNumber_unsigned hx (by rwa [abs_of_pos hpos])
    rw [hx, hneg, decide_eq_true hpos, decide_eq_false (not_lt.2 hpos.le), hminus]
  · have hneg : exactValue x < 0 := by linarith
    obtain ⟨text, hx, hneg'⟩ := renderNumber_unsigned hx (by rw [abs_of_neg hneg]; linarith)
    rw [hx, hneg', decide_eq_true hneg, decide_eq_false (not_lt.2 hneg.le), hminus]

end

/-- A value with an exponent, its opposite, and a value that is written as zero. -/
theorem renderNumber_canonical_small :
    (renderNumber 1.25e-7).toList ∈ ResultText.pattern.matches' ∧
      renderNumber (-1.25e-7) = "-" ++ renderNumber 1.25e-7 ∧
      renderNumber (-1.25e-7) = "-" ++ renderNumber (- -1.25e-7) ∧
      renderNumber 1e-13 = "0" ∧ renderNumber (-1e-13) = "0" := by
  have hfinite : (1.25e-7 : Float).isFinite := by decide +kernel
  have htiny : (1e-13 : Float).isFinite := by decide +kernel
  have hfar : exactValue wholeTolerance ≤ exactValue 1.25e-7 :=
    (le_iff_exactValue_le (by decide +kernel) hfinite).1 (by decide +kernel)
  have hnear : |exactValue 1e-13| < exactValue wholeTolerance := by
    rw [← (exactValue_abs htiny).2]
    exact (lt_iff_exactValue_lt (by decide +kernel) (by decide +kernel)).1 (by decide +kernel)
  obtain ⟨hfinite', hopposite⟩ := exactValue_neg hfinite
  obtain ⟨hpattern, -, -, -, hpositive, -⟩ := renderNumber_canonical hfinite
  obtain ⟨-, -, -, -, -, hnegative⟩ := renderNumber_canonical hfinite'
  obtain ⟨-, -, -, hzero, -, -⟩ := renderNumber_canonical htiny
  exact ⟨hpattern, hpositive hfar, hnegative (by rw [hopposite]; exact neg_le_neg hfar),
    hzero hnear⟩

end Reckon
