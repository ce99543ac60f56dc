import Reckon.Proofs.Course
import Reckon.Proofs.Doubles.Nearest
import Reckon.Proofs.Lexing
import Reckon.Proofs.Rendering

/-!
# Reading a result back

The text of a finite result is a literal, or one behind a minus sign (`renderNumber_literal`). So it
is read as one operand (`tokens_withSign`), and it is evaluated to the double nearest to the number
that it denotes (`renderNumber_readback`). The exception are the last doubles: from
`1797693134862315 * 10 ^ 293` on fifteen digits are rounded up to more than the finite doubles reach
(`Significant.overflowBound_le_iff`), and the literal is rejected.
-/

namespace Reckon

/-- The text is a literal, or one behind a minus sign, for the number. -/
def Denotes (text : String) (q : ℚ) : Prop :=
  ∃ negative n, Numeral.WellFormed n ∧ text.toList = withSign negative n.text ∧
    q = signed negative n.decimal.value

/-- No literal starts with a sign. -/
theorem Numeral.WellFormed.head?_ne_minus {n : Numeral} (h : n.WellFormed) :
    n.text.head? ≠ some '-' := by
  intro hhead
  obtain ⟨rest, hrest⟩ := List.head?_eq_some_iff.1 hhead
  have hscan := h.scan?_text
  rw [hrest, Numeral.scan?_mark (by decide) (by decide)] at hscan
  cases hscan

/-- A sign in front of a literal is not a part of it. -/
theorem withSign_injective {negative negative' : Bool} {m n : Numeral} (hm : m.WellFormed)
    (hn : n.WellFormed) (h : withSign negative m.text = withSign negative' n.text) :
    negative = negative' ∧ m = n := by
  have hsign : negative = negative' := by
    cases negative <;> cases negative'
    · rfl
    · exact absurd (congrArg List.head? h) hm.head?_ne_minus
    · exact absurd (congrArg List.head? h).symm hn.head?_ne_minus
    · rfl
  subst hsign
  have htext : m.text = n.text := by
    cases negative
    · exact h
    · exact (List.cons.inj h).2
  have hscan := hm.scan?_text
  rw [htext, hn.scan?_text] at hscan
  cases hscan
  exact ⟨rfl, rfl⟩

/-- A text denotes one number. -/
theorem Denotes.unique {text : String} {q r : ℚ} (hq : Denotes text q) (hr : Denotes text r) :
    q = r := by
  obtain ⟨negative, m, hm, htext, rfl⟩ := hq
  obtain ⟨negative', n, hn, htext', rfl⟩ := hr
  obtain ⟨rfl, rfl⟩ := withSign_injective hm hn (htext.symm.trans htext')
  rfl

/-- The literal of a whole number. -/
def Numeral.ofNat (k : Nat) : Numeral :=
  ⟨Nat.toDigits 10 k, false, [], none⟩

/-- A whole number is a literal. -/
theorem Numeral.ofNat_wellFormed (k : Nat) : (ofNat k).WellFormed :=
  ⟨isDigit_toDigits k, nofun, fun _ => rfl, .inl Nat.toDigits_ne_nil, nofun⟩

/-- A whole number is written with its digits. -/
theorem Numeral.ofNat_text (k : Nat) : (ofNat k).text = Nat.toDigits 10 k := by
  simp [text, ofNat]

/-- A whole number is the value of its literal. -/
theorem Numeral.ofNat_value (k : Nat) : (ofNat k).decimal.value = k := by
  simp [ofNat, decimal, Decimal.value, digitsValue_toDigits]

/-- A text with a minus sign in front of it or without one. -/
theorem toList_sign (p : Prop) [Decidable p] (text : List Char) :
    ((if p then "-" else "") ++ String.ofList text).toList = withSign (decide p) text := by
  rw [String.toList_append, String.toList_ofList]
  by_cases hp : p
  · rw [if_pos hp, decide_eq_true hp]
    rfl
  · rw [if_neg hp, decide_eq_false hp]
    rfl

/-- The text of an integer is the literal of a whole number, behind a minus sign if that is
negative. -/
theorem toList_toString (z : Int) :
    (toString z).toList = withSign (decide (z < 0)) (Numeral.ofNat z.natAbs).text := by
  rw [Numeral.ofNat_text, ← toList_sign]
  cases z with
  | ofNat k =>
    rw [if_neg (by simp)]
    exact congrArg String.toList String.empty_append.symm
  | negSucc k =>
    rw [if_pos (Int.negSucc_lt_zero k)]
    rfl

/-! ## The largest results -/

/-- The bound has the fifteen digits that the largest double has. -/
theorem overflowBound_bounds :
    (179769313486231 * 10 ^ 294 : ℚ) < overflowBound ∧
      overflowBound ≤ (179769313486232 * 10 ^ 294 : ℚ) := by
  have hlow : ((179769313486231 * 10 ^ 294 + 2 ^ 970 : Nat) : ℚ) < (2 ^ 1024 : Nat) :=
    Nat.cast_lt.2 (by decide +kernel)
  have hhigh : ((2 ^ 1024 : Nat) : ℚ) ≤ (179769313486232 * 10 ^ 294 + 2 ^ 970 : Nat) :=
    Nat.cast_le.2 (by decide +kernel)
  simp only [Nat.cast_add, Nat.cast_mul, Nat.cast_pow, Nat.cast_ofNat] at hlow hhigh
  exact ⟨lt_sub_iff_add_lt.2 hlow, sub_le_iff_le_add.2 hhigh⟩

/-- Whole numbers that are printed in full are in range. -/
theorem two_pow_lt_overflowBound :
    (2 : ℚ) ^ 63 < overflowBound ∧ (1 / 2 + 2 ^ 63 : ℚ) < 1797693134862315 * 10 ^ 293 := by
  have hpow : ((10 ^ 4 : Nat) : ℚ) ≤ (10 ^ 293 : Nat) := Nat.cast_le.2 (by decide +kernel)
  rw [Nat.cast_pow 10 293, Nat.cast_ofNat] at hpow
  have hstep : (10 : ℚ) ^ 294 = 10 ^ 293 * 10 := pow_succ 10 293
  have hbelow := overflowBound_bounds.1
  rw [hstep] at hbelow
  generalize (10 : ℚ) ^ 293 = c at hpow hbelow
  norm_num at hpow
  constructor <;> linarith

/-- Between two numbers with fifteen digits, on either side of the bound, rounding goes up from half
way on. -/
theorem NearestEven.overflowBound_le_iff {q : ℚ} {n : Nat} (h : NearestEven (q / 10 ^ 294) n) :
    overflowBound ≤ n * 10 ^ 294 ↔ 1797693134862315 * 10 ^ 293 ≤ q := by
  obtain ⟨hbelow, habove⟩ := overflowBound_bounds
  have hpos : (0 : ℚ) < 10 ^ 294 := by positivity
  have hhalf : (((179769313486232 : Nat) : ℚ) - 1 / 2) * 10 ^ 294 =
      1797693134862315 * 10 ^ 293 := by
    rw [show (10 : ℚ) ^ 294 = 10 ^ 293 * 10 from pow_succ 10 293, Nat.cast_ofNat]
    generalize (10 : ℚ) ^ 293 = c
    ring
  have hdigits : overflowBound ≤ n * 10 ^ 294 ↔ 179769313486232 ≤ n := by
    constructor
    · intro hbound
      have hlt := lt_of_mul_lt_mul_right (hbelow.trans_le hbound) hpos.le
      exact Nat.succ_le_of_lt (by exact_mod_cast hlt)
    · intro hn
      exact habove.trans (mul_le_mul_of_nonneg_right (by exact_mod_cast hn) hpos.le)
  rw [hdigits, ← hhalf, ← le_div_iff₀ hpos, ← not_lt, h.lt_iff (by decide), not_lt]

/-- Rounding to fifteen digits carries a number to the bound or beyond it, if it is at least half
way from the last number with such digits below the bound to the next one. -/
theorem Significant.overflowBound_le_iff {q d : ℚ} (h : Significant 15 q d) (hq : q ≠ 0)
    (hrange : |q| < 2 ^ 1024) : overflowBound ≤ |d| ↔ 1797693134862315 * 10 ^ 293 ≤ |q| := by
  obtain ⟨n, hnear, hd, -, hhigh⟩ := h.exists_coefficient (by decide) hq
  have hlead := Int.zpow_log_le_self (b := 10) (by decide) (abs_pos.2 hq)
  have hnext := Int.lt_zpow_succ_log_self (b := 10) (by decide) |q|
  have hlast : lastPlace 15 q = Int.log 10 |q| - 14 := rfl
  have hone : (1 : ℚ) ≤ 10 := by norm_num
  rw [Nat.cast_ofNat] at hlead hnext
  rw [hlast] at hnear hd
  generalize Int.log 10 |q| = lead at hnear hd hlead hnext
  rcases lt_trichotomy lead 308 with hless | rfl | hmore
  · -- with the first digit at a lower place all fifteen digits leave room
    have hroom : (10 : ℚ) ^ 15 * 10 ^ (293 : Int) < overflowBound := by
      refine lt_trans ?_ overflowBound_bounds.1
      rw [zpow_ofNat, show (10 : ℚ) ^ 294 = 10 * 10 ^ 293 from pow_succ' 10 293, ← mul_assoc]
      exact mul_lt_mul_of_pos_right (by norm_num) (by positivity)
    refine iff_of_false (not_le.2 ?_) (not_le.2 ?_)
    · calc |d| = n * 10 ^ (lead - 14) := hd
        _ ≤ 10 ^ 15 * 10 ^ (293 : Int) :=
          mul_le_mul (by exact_mod_cast hhigh) (zpow_le_zpow_right₀ hone (by omega))
            (zpow_nonneg (by norm_num) _) (by norm_num)
        _ < overflowBound := hroom
    · calc |q| < 10 ^ (lead + 1) := hnext
        _ ≤ 10 ^ (308 : Int) := zpow_le_zpow_right₀ hone (by omega)
        _ = 10 ^ 15 * 10 ^ 293 := by rw [zpow_ofNat, ← pow_add]
        _ < 1797693134862315 * 10 ^ 293 :=
          mul_lt_mul_of_pos_right (by norm_num) (by positivity)
  · have hplace : (10 : ℚ) ^ ((308 : Int) - 14) = 10 ^ 294 := zpow_natCast 10 294
    rw [hplace] at hnear hd
    rw [hd, hnear.overflowBound_le_iff]
  · have hten : 10 ^ (309 : Int) ≤ |q| := (zpow_le_zpow_right₀ hone (by omega)).trans hlead
    rw [zpow_ofNat] at hten
    exact absurd (hrange.trans_le two_pow_le_ten_pow) (not_lt.2 hten)

/-! ## The text of a result -/

/-- The values of doubles are below a power of two. -/
theorem abs_exactValue_lt {x : Float} (hx : x.isFinite) : |exactValue x| < 2 ^ 1024 := by
  obtain ⟨negative, units, hunits⟩ := exists_ofFloat_eq hx
  have hone : (0 : ℚ) < Binary64.one := Nat.cast_pos.2 Binary64.one_pos
  have hlt : (units : ℚ) < (Binary64.one * twoPow 1024 : Nat) :=
    Nat.cast_lt.2 (Binary64.overflow_eq ▸ units_lt hunits)
  rw [Nat.cast_mul, cast_twoPow] at hlt
  rw [exactValue_eq hunits, abs_signed, abs_of_nonneg (div_nonneg (Nat.cast_nonneg _) hone.le),
    div_lt_iff₀' hone]
  exact hlt

/-- The text of a finite double is a literal, or one behind a minus sign. It is at the bound or
beyond it only for the last doubles, and has their sign. -/
theorem renderNumber_literal {x : Float} (hx : x.isFinite) :
    ∃ negative n, Numeral.WellFormed n ∧ (renderNumber x).toList = withSign negative n.text ∧
      (negative = true → 0 < n.decimal.value) ∧
      (overflowBound ≤ n.decimal.value ↔ 1797693134862315 * 10 ^ 293 ≤ |exactValue x|) ∧
      (overflowBound ≤ n.decimal.value → negative = decide (exactValue x < 0)) := by
  by_cases hwhole : IsWhole (exactValue x)
  · obtain ⟨htext, -⟩ := renderNumber_whole hx hwhole
    have hnear := (roundAway_nearest (exactValue x)).1
    have hless := hwhole.2
    generalize roundAway (exactValue x) = z at htext hnear hless
    have hvalue := Numeral.ofNat_value z.natAbs
    rw [Nat.cast_natAbs] at hvalue
    have hsmall : ((|z| : Int) : ℚ) < 2 ^ 63 := by exact_mod_cast hless
    obtain ⟨hbound, hlast⟩ := two_pow_lt_overflowBound
    have hbelow : ¬ overflowBound ≤ (Numeral.ofNat z.natAbs).decimal.value := by
      rw [hvalue]
      exact not_le.2 (hsmall.trans hbound)
    refine ⟨decide (z < 0), Numeral.ofNat z.natAbs, Numeral.ofNat_wellFormed _,
      by rw [htext, toList_toString], fun hneg => ?_, iff_of_false hbelow (not_le.2 ?_),
      fun hle => absurd hle hbelow⟩
    · rw [hvalue]
      exact_mod_cast abs_pos.2 (of_decide_eq_true hneg).ne
    · calc |exactValue x| ≤ |exactValue x - z| + |(z : ℚ)| := by
            linarith [abs_sub_abs_le_abs_sub (exactValue x) z]
        _ ≤ 1 / 2 + 2 ^ 63 := add_le_add hnear (by exact_mod_cast hsmall.le)
        _ < 1797693134862315 * 10 ^ 293 := hlast
  · obtain ⟨d, n, hsignificant, htext, hn, -, hvalue, -, -⟩ := renderNumber_significant hx hwhole
    have hne : exactValue x ≠ 0 := fun hzero => hwhole (hzero ▸ isWhole_zero)
    refine ⟨decide (exactValue x < 0), n, hn, by rw [htext, toList_sign], fun _ => ?_, ?_,
      fun _ => rfl⟩
    · rw [hvalue]
      exact hsignificant.pos (by decide) hne
    · rw [hvalue, hsignificant.overflowBound_le_iff hne (abs_exactValue_lt hx)]

/-! ## Reading a literal as an operand -/

section
variable {source : String} {negative : Bool} {n : Numeral}

/-- A literal is read as one token, and a sign in front of it as one more. -/
theorem tokens_withSign (hn : n.WellFormed) (h : source.toList = withSign negative n.text) :
    tokens source =
      (if negative then [⟨.minus, 1⟩, ⟨(Lexeme.ofNumeral n).token, 2⟩]
        else [⟨(Lexeme.ofNumeral n).token, 1⟩]) ++ [⟨.finish, 1 + source.length⟩] := by
  have hliteral (position : Nat) : Cursor.tokens ⟨n.text, position⟩ =
      [⟨(Lexeme.ofNumeral n).token, position⟩, ⟨.finish, position + n.text.length⟩] := by
    have hnumeral := Cursor.tokens_numeral hn Numeral.ends_nil position
    rwa [List.append_nil, Cursor.tokens_nil] at hnumeral
  rw [tokens, Cursor.start, ← String.length_toList, h]
  cases negative with
  | false => exact hliteral 1
  | true =>
    have hminus : Cursor.tokens ⟨withSign true n.text, 1⟩ =
        ⟨.minus, 1⟩ :: Cursor.tokens ⟨n.text, 2⟩ := Cursor.tokens_unary .negate n.text 1
    have hlength : 1 + (withSign true n.text).length = 2 + n.text.length := by
      rw [withSign, if_pos rfl, List.length_cons]
      omega
    rw [hminus, hliteral, hlength]
    rfl

/-- A literal with a sign is read as the sign and the number. -/
theorem body_withSign (hn : n.WellFormed) (h : source.toList = withSign negative n.text) :
    body source =
      if negative then [⟨.minus, 1⟩, ⟨(Lexeme.ofNumeral n).token, 2⟩]
      else [⟨(Lexeme.ofNumeral n).token, 1⟩] := by
  rw [body, tokens_withSign hn h, List.dropLast_concat]

/-- A literal with a sign has the value of the literal, with that sign. -/
theorem evaluate_withSign {value : Float} (hn : n.WellFormed)
    (h : source.toList = withSign negative n.text) (hvalue : n.decimal.double? = some value) :
    evaluate source = .ok (signed negative value) := by
  rw [evaluate, evaluateWith_eq_course, tokens_withSign hn h, Lexeme.ofNumeral, hvalue]
  cases negative <;> rfl

/-- A literal that is too large is an invalid character where it stands. -/
theorem evaluate_withSign_of_none (hn : n.WellFormed)
    (h : source.toList = withSign negative n.text) (hvalue : n.decimal.double? = none) :
    evaluate source = .error ⟨.invalidCharacter, if negative then 2 else 1⟩ := by
  rw [evaluate, evaluateWith_eq_course, tokens_withSign hn h, Lexeme.ofNumeral, hvalue]
  cases negative <;> rfl

end

/-! ## Evaluating the text of a result -/

/-- The text of a finite double denotes one number. It is read as one operand, of one token or with
a minus sign in front of it, and it is evaluated to the double nearest to the number; a number that
is too large for one is rejected where the literal starts, which happens only for the last
doubles. -/
theorem renderNumber_readback {x : Float} (hx : x.isFinite) :
    (∃! d, Denotes (renderNumber x) d) ∧
    ∀ d, Denotes (renderNumber x) d →
      (|d| < overflowBound → ∃ y, evaluate (renderNumber x) = .ok y ∧ NearestDouble d y ∧
        ∀ z, NearestDouble d z → z = y) ∧
      (overflowBound ≤ |d| → evaluate (renderNumber x) =
        .error ⟨.invalidCharacter, if exactValue x < 0 then 2 else 1⟩) ∧
      (overflowBound ≤ |d| ↔ 1797693134862315 * 10 ^ 293 ≤ |exactValue x|) ∧
      ∃ t, body (renderNumber x) = if d < 0 then [⟨.minus, 1⟩, ⟨t, 2⟩] else [⟨t, 1⟩] := by
  obtain ⟨negative, n, hn, htext, hpos, hlast, hsign⟩ := renderNumber_literal hx
  have hdenotes : Denotes (renderNumber x) (signed negative n.decimal.value) :=
    ⟨negative, n, hn, htext, rfl⟩
  have habs : |signed negative n.decimal.value| = n.decimal.value := by
    rw [abs_signed, abs_of_nonneg n.decimal.value_nonneg]
  have hneg : signed negative n.decimal.value < 0 ↔ negative = true := by
    cases negative with
    | false => exact iff_of_false (not_lt.2 n.decimal.value_nonneg) Bool.false_ne_true
    | true => exact iff_of_true (neg_neg_of_pos (hpos rfl)) rfl
  refine ⟨⟨_, hdenotes, fun d hd => hd.unique hdenotes⟩, fun d hd => ?_⟩
  obtain rfl := hd.unique hdenotes
  rw [habs]
  refine ⟨fun hless => ?_, fun hlarge => ?_, hlast, (Lexeme.ofNumeral n).token, ?_⟩
  · obtain ⟨value, hvalue, hnearest, hopposite⟩ := Decimal.double?_nearest hless
    have hrounded : NearestDouble (signed negative n.decimal.value) (signed negative value) := by
      cases negative with
      | false => exact hnearest
      | true => exact hopposite (hpos rfl)
    exact ⟨signed negative value, evaluate_withSign hn htext hvalue, hrounded,
      fun z hz => hz.unique hrounded⟩
  · rw [evaluate_withSign_of_none hn htext (Decimal.double?_eq_none hlarge), hsign hlarge]
    simp only [decide_eq_true_eq]
  · rw [body_withSign hn htext]
    simp only [hneg]

/-- The text of the least double is beyond the bound. -/
theorem renderNumber_readback_largest :
    (-1.7976931348623157e308 : Float).isFinite ∧
      evaluate (renderNumber (-1.7976931348623157e308)) = .error ⟨.invalidCharacter, 2⟩ := by
  have hfinite : (-1.7976931348623157e308 : Float).isFinite := by decide +kernel
  have hread : Binary64.ofFloat (-1.7976931348623157e308) =
      .finite true ((2 ^ 53 - 1) * twoPow 2045) := by decide +kernel
  have hone : (0 : ℚ) < Binary64.one := Nat.cast_pos.2 Binary64.one_pos
  have hunits : ((1797693134862315 * 10 ^ 293 * Binary64.one : Nat) : ℚ) ≤
      ((2 ^ 53 - 1) * twoPow 2045 : Nat) := Nat.cast_le.2 (by decide +kernel)
  have hpos : (0 : ℚ) < ((2 ^ 53 - 1) * twoPow 2045 : Nat) / Binary64.one :=
    div_pos (Nat.cast_pos.2 (Nat.mul_pos (by decide) (twoPow_pos 2045))) hone
  have hvalue := exactValue_eq hread
  obtain ⟨⟨d, hd, -⟩, hall⟩ := renderNumber_readback hfinite
  obtain ⟨-, herror, hlast, -⟩ := hall d hd
  have hneg : exactValue (-1.7976931348623157e308) < 0 := by
    rw [hvalue, signed_lt_zero hpos]
  refine ⟨hfinite, (herror (hlast.2 ?_)).trans (by rw [if_pos hneg])⟩
  rw [Nat.cast_mul, Nat.cast_mul, Nat.cast_pow, Nat.cast_ofNat, Nat.cast_ofNat] at hunits
  rw [hvalue, abs_signed, abs_of_pos hpos, le_div_iff₀ hone]
  exact hunits

example : renderNumber (-1e20) = "-1e+20" ∧ evaluate "-1e+20" = .ok (-1e20) := by decide +kernel

end Reckon
