import Mathlib.Data.List.DropRight
import Reckon.Number.Rendering
import Reckon.Proofs.Literal
import Reckon.Proofs.Rounding

/-!
# Decimal numbers as texts

What `Layout.text` writes is a literal (`Layout.text_spec`): it denotes the decimal number exactly,
it has an exponent where the layout says so, and no zero in it could be left out
(`Numeral.Trimmed`). `SignificantDigits` are digits that neither start nor end with a zero; such
digits, with the place of the first, are written as `positionalNumeral` or as `scientificNumeral`.
-/

namespace Reckon

/-! ## Digits -/

/-- Digits count the more, the more are behind them. -/
theorem digitsValue_append (digits more : List Char) :
    digitsValue (digits ++ more) = digitsValue digits * 10 ^ more.length + digitsValue more := by
  have happend := Nat.ofDigitChars_append (b := 10) (l := digits) (m := more) 0
  rw [Nat.ofDigitChars_eq_ofDigitChars_zero (l := more), Nat.mul_comm] at happend
  exact happend

/-- Zeros count nothing. -/
theorem digitsValue_zeros (n : Nat) : digitsValue (List.replicate n '0') = 0 :=
  @Nat.ofDigitChars_replicate_zero 10 0 n

/-- The digits of a number count it. -/
theorem digitsValue_toDigits (n : Nat) : digitsValue (Nat.toDigits 10 n) = n :=
  Nat.ofDigitChars_ten_toDigits

/-- A number is written with digits. -/
theorem isDigit_toDigits (n : Nat) : ∀ c ∈ Nat.toDigits 10 n, c.isDigit :=
  fun _ hc => Nat.isDigit_of_mem_toDigits (by decide) (by decide) hc

/-- Zeros are digits. -/
theorem isDigit_zeros (n : Nat) : ∀ c ∈ List.replicate n '0', c.isDigit :=
  fun _ hc => (List.eq_of_mem_replicate hc).symm ▸ (by decide)

/-- The first digit of a positive number is not a zero. -/
theorem head?_toDigits_ne {n : Nat} (h : 0 < n) : (Nat.toDigits 10 n).head? ≠ some '0' := by
  induction n using Nat.base_induction 10 (by decide) with
  | single m hm =>
    rw [Nat.toDigits_of_lt_base hm]
    have hdigit : ∀ d : Fin 10, 0 < d.val → some (Nat.digitChar d) ≠ some '0' := by decide
    exact hdigit ⟨m, hm⟩ h
  | digit m k hk hm ih =>
    rw [← Nat.toDigits_append_toDigits (by decide) hm hk,
      List.head?_append_of_ne_nil _ Nat.toDigits_ne_nil]
    exact ih hm

section
variable (width n : Nat)

/-- With zeros in front, a number is still written with digits. -/
theorem isDigit_paddedDigits : ∀ c ∈ paddedDigits width n, c.isDigit := by
  intro c hc
  rcases List.mem_append.1 hc with hc | hc
  · exact isDigit_zeros _ c hc
  · exact isDigit_toDigits n c hc

/-- Zeros in front do not change what the digits count. -/
theorem digitsValue_paddedDigits : digitsValue (paddedDigits width n) = n := by
  rw [paddedDigits, digitsValue_append, digitsValue_zeros, digitsValue_toDigits, Nat.zero_mul,
    Nat.zero_add]

/-- Zeros fill up the width, if the digits do not. -/
theorem length_paddedDigits :
    (paddedDigits width n).length = max width (Nat.toDigits 10 n).length := by
  rw [paddedDigits, List.length_append, List.length_replicate]
  omega

/-- Zeros only stand in front as far as the width asks for them. -/
theorem length_paddedDigits_of_zero (h : (paddedDigits width n).head? = some '0') :
    (paddedDigits width n).length = max width 1 := by
  rw [length_paddedDigits]
  rcases Nat.eq_zero_or_pos n with rfl | hn
  · rfl
  · by_cases hwidth : width ≤ (Nat.toDigits 10 n).length
    · rw [paddedDigits, Nat.sub_eq_zero_of_le hwidth] at h
      exact absurd h (head?_toDigits_ne hn)
    · have hpos := Nat.length_toDigits_pos (b := 10) (n := n)
      omega

end

/-- Digits that neither start nor end with a zero. -/
structure SignificantDigits (digits : List Char) : Prop where
  isDigit : ∀ c ∈ digits, c.isDigit
  ne_nil : digits ≠ []
  first : digits.head? ≠ some '0'
  last : digits.getLast? ≠ some '0'

/-- The digits of a positive number are significant ones and zeros behind them. -/
theorem toDigits_eq_append_zeros {n : Nat} (h : 0 < n) :
    SignificantDigits (dropEndZeros (Nat.toDigits 10 n)) ∧
      ∃ zeros, Nat.toDigits 10 n =
        dropEndZeros (Nat.toDigits 10 n) ++ List.replicate zeros '0' := by
  have hdrop : dropEndZeros (Nat.toDigits 10 n) = (Nat.toDigits 10 n).rdropWhile (· = '0') := rfl
  have hsplit := List.rdropWhile_append_rtakeWhile (p := (· = '0')) (l := Nat.toDigits 10 n)
  have hzeros : ∀ c ∈ (Nat.toDigits 10 n).rtakeWhile (· = '0'), c = '0' := by
    intro c hc
    simpa using List.mem_rtakeWhile_imp hc
  have hhead := head?_toDigits_ne h
  have hne : (Nat.toDigits 10 n).rdropWhile (· = '0') ≠ [] := by
    intro hnil
    obtain ⟨c, hc⟩ := Option.isSome_iff_exists.1 (List.isSome_head?.2 Nat.toDigits_ne_nil)
    have hzero := List.rdropWhile_eq_nil_iff.1 hnil c (List.mem_of_mem_head? hc)
    exact hhead (of_decide_eq_true hzero ▸ hc)
  rw [List.eq_replicate_of_mem hzeros] at hsplit
  rw [hdrop]
  refine ⟨⟨fun c hc => ?_, hne, ?_, ?_⟩, _, hsplit.symm⟩
  · exact isDigit_toDigits n c ((List.rdropWhile_prefix _ _).subset hc)
  · rwa [← hsplit, List.head?_append_of_ne_nil _ hne] at hhead
  · rw [List.getLast?_eq_some_getLast hne]
    exact fun hlast => List.rdropWhile_last_not _ _ hne (decide_eq_true (Option.some.inj hlast))

/-! ## Literals -/

/-- No zero could be left out: the part in front of the point is not empty and does not start with a
zero unless it is one, and the part behind a point ends in another digit. -/
structure Numeral.Trimmed (n : Numeral) : Prop where
  whole : n.whole ≠ []
  first : n.whole.head? = some '0' → n.whole = ['0']
  last : n.point → n.fraction ≠ [] ∧ n.fraction.getLast? ≠ some '0'

/-- The number with the given significant digits, the first of which counts `10 ^ lead`, written
with its point in place. -/
def positionalNumeral (digits : List Char) (lead : Int) : Numeral :=
  let places := (lead + 1).toNat
  let whole :=
    if 0 ≤ lead then digits.take places ++ List.replicate (places - digits.length) '0' else ['0']
  let fraction :=
    if 0 ≤ lead then digits.drop places else List.replicate (-lead - 1).toNat '0' ++ digits
  ⟨whole, !fraction.isEmpty, fraction, none⟩

/-- The exponent of a number whose first digit counts `10 ^ lead`. -/
def Layout.exponentPart (layout : Layout) (lead : Int) : ExponentPart where
  mark := 'e'
  sign := if lead < 0 then some '-' else if layout.plusSign then some '+' else none
  digits := paddedDigits layout.exponentDigits lead.natAbs

/-- The number with the given significant digits, the first of which counts `10 ^ lead`, written
with one digit in front of the point and an exponent. -/
def scientificNumeral (layout : Layout) (digits : List Char) (lead : Int) : Numeral where
  whole := digits.take 1
  point := !(digits.drop 1).isEmpty
  fraction := digits.drop 1
  exponent := some (layout.exponentPart lead)

/-- The text without an exponent is that of the literal. -/
theorem positional_eq_text {layout : Layout} (hpoint : layout.pointZero = false)
    (digits : List Char) (lead : Int) :
    layout.positional digits lead = (positionalNumeral digits lead).text := by
  unfold Layout.positional positionalNumeral
  simp only [hpoint, Bool.false_eq_true, if_false]
  generalize (if 0 ≤ lead then digits.drop _ else _) = fraction
  cases fraction <;> simp [Numeral.text]

/-- The text with an exponent is that of the literal. -/
theorem scientific_eq_text (layout : Layout) (digits : List Char) (lead : Int) :
    layout.scientific digits lead = (scientificNumeral layout digits lead).text := by
  unfold Layout.scientific scientificNumeral Layout.exponentPart
  generalize digits.drop 1 = fraction
  have hsign : (if lead < 0 then ['-'] else if layout.plusSign then ['+'] else []) =
      (if lead < 0 then some '-' else if layout.plusSign then some '+' else none).toList := by
    split
    · rfl
    · split <;> rfl
  cases fraction <;> simp [Numeral.text, ExponentPart.text, hsign]

/-- Where the point goes: in front of all digits, behind all of them or between two of them. -/
inductive Pointed (digits : List Char) (lead : Int) : Numeral → Prop
  | front (zeros : Nat) : lead + 1 = -zeros →
      Pointed digits lead ⟨['0'], true, List.replicate zeros '0' ++ digits, none⟩
  | behind (zeros : Nat) : lead + 1 = digits.length + zeros →
      Pointed digits lead ⟨digits ++ List.replicate zeros '0', false, [], none⟩
  | between {whole fraction : List Char} : digits = whole ++ fraction → lead + 1 = whole.length →
      whole ≠ [] → fraction ≠ [] → Pointed digits lead ⟨whole, true, fraction, none⟩

/-- The point stands where the first digit says. -/
theorem pointed_positionalNumeral {digits : List Char} (hdigits : digits ≠ []) (lead : Int) :
    Pointed digits lead (positionalNumeral digits lead) := by
  unfold positionalNumeral
  by_cases hlead : 0 ≤ lead
  · simp only [if_pos hlead]
    obtain ⟨places, hplaces⟩ := Int.eq_ofNat_of_zero_le (by omega : 0 ≤ lead + 1)
    rw [hplaces, Int.toNat_natCast]
    by_cases hshort : digits.length ≤ places
    · rw [List.take_of_length_le hshort, List.drop_of_length_le hshort]
      exact .behind _ (by omega)
    · have hnone : places - digits.length = 0 := by omega
      have hfraction : digits.drop places ≠ [] := by
        rw [ne_eq, List.drop_eq_nil_iff]
        exact hshort
      have hlength : (digits.take places).length = places := by
        rw [List.length_take]
        omega
      rw [hnone, List.replicate_zero, List.append_nil, List.isEmpty_eq_false_iff.2 hfraction]
      refine .between (List.take_append_drop places digits).symm (by omega) ?_ hfraction
      rw [← List.length_pos_iff]
      omega
  · simp only [if_neg hlead]
    rw [List.isEmpty_eq_false_iff.2 (List.append_ne_nil_of_right_ne_nil _ hdigits)]
    exact .front _ (by omega)

namespace Layout

variable (layout : Layout) (lead : Int)

/-- The exponent of a result is well formed. -/
theorem exponentPart_wellFormed : (layout.exponentPart lead).WellFormed := by
  refine ⟨.inl rfl, fun c hc => ?_, isDigit_paddedDigits _ _, ?_⟩
  · unfold exponentPart at hc
    dsimp only at hc
    split at hc
    · exact .inr (Option.some.inj hc).symm
    · split at hc
      · exact .inl (Option.some.inj hc).symm
      · cases hc
  · rw [← List.length_pos_iff, exponentPart, length_paddedDigits]
    have hpos := Nat.length_toDigits_pos (b := 10) (n := lead.natAbs)
    omega

/-- The exponent of a result is that of its first digit. -/
theorem exponentPart_value : (layout.exponentPart lead).value = lead := by
  unfold ExponentPart.value exponentPart
  dsimp only
  rw [digitsValue_paddedDigits]
  by_cases hlead : lead < 0
  · rw [if_pos hlead, if_pos rfl]
    omega
  · rw [if_neg hlead, if_neg (by split <;> decide)]
    omega

end Layout

namespace SignificantDigits

variable {digits : List Char} {lead : Int} {n : Numeral}

/-- Significant digits behind zeros are digits. -/
theorem isDigit_behind_zeros (h : SignificantDigits digits) (zeros : Nat) :
    ∀ c ∈ List.replicate zeros '0' ++ digits, c.isDigit := by
  intro c hc
  rcases List.mem_append.1 hc with hc | hc
  · exact isDigit_zeros zeros c hc
  · exact h.isDigit c hc

/-- Significant digits behind zeros do not end in a zero. -/
theorem last_behind_zeros (h : SignificantDigits digits) (zeros : Nat) :
    (List.replicate zeros '0' ++ digits).getLast? ≠ some '0' := by
  rw [List.getLast?_append_of_ne_nil _ h.ne_nil]
  exact h.last

/-- Significant digits with a point are a literal. -/
theorem pointed_wellFormed (h : SignificantDigits digits) (hn : Pointed digits lead n) :
    n.WellFormed := by
  cases hn with
  | front zeros =>
    exact ⟨isDigit_zeros 1, h.isDigit_behind_zeros zeros, nofun, .inl (List.cons_ne_nil _ _), nofun⟩
  | behind zeros =>
    refine ⟨fun c hc => ?_, nofun, fun _ => rfl, .inl ?_, nofun⟩
    · rcases List.mem_append.1 hc with hc | hc
      · exact h.isDigit c hc
      · exact isDigit_zeros zeros c hc
    · exact List.append_ne_nil_of_left_ne_nil h.ne_nil _
  | between hsplit _ hwhole _ =>
    refine ⟨fun c hc => h.isDigit c ?_, fun c hc => h.isDigit c ?_, nofun, .inl hwhole, nofun⟩
    · exact hsplit ▸ List.mem_append_left _ hc
    · exact hsplit ▸ List.mem_append_right _ hc

/-- Significant digits with a point have no zeros that could go. -/
theorem pointed_trimmed (h : SignificantDigits digits) (hn : Pointed digits lead n) :
    n.Trimmed := by
  cases hn with
  | front zeros =>
    refine ⟨List.cons_ne_nil _ _, fun _ => rfl, fun _ => ⟨?_, h.last_behind_zeros zeros⟩⟩
    exact List.append_ne_nil_of_right_ne_nil _ h.ne_nil
  | behind zeros =>
    refine ⟨List.append_ne_nil_of_left_ne_nil h.ne_nil _, fun hzero => ?_, nofun⟩
    rw [List.head?_append_of_ne_nil _ h.ne_nil] at hzero
    exact absurd hzero h.first
  | between hsplit _ hwhole hfraction =>
    have hfirst := h.first
    have hlast := h.last
    rw [hsplit, List.head?_append_of_ne_nil _ hwhole] at hfirst
    rw [hsplit, List.getLast?_append_of_ne_nil _ hfraction] at hlast
    exact ⟨hwhole, fun hzero => absurd hzero hfirst, fun _ => ⟨hfraction, hlast⟩⟩

/-- The value of a literal does not depend on where the point is put. -/
theorem pointed_value (hn : Pointed digits lead n) :
    n.decimal.value = digitsValue digits * 10 ^ (lead + 1 - digits.length) := by
  cases hn with
  | front zeros hlead =>
    have hvalue : digitsValue (['0'] ++ (List.replicate zeros '0' ++ digits)) =
        digitsValue digits := by
      rw [digitsValue_append, digitsValue_append, digitsValue_zeros]
      simp [digitsValue]
    simp only [Numeral.decimal, Decimal.value, hvalue, Option.map_none, Option.getD_none, hlead,
      List.length_append, List.length_replicate, Nat.cast_add]
    congr 2
    omega
  | behind zeros hlead =>
    have hvalue : digitsValue (digits ++ List.replicate zeros '0' ++ []) =
        digitsValue digits * 10 ^ zeros := by
      rw [List.append_nil, digitsValue_append, digitsValue_zeros, List.length_replicate, add_zero]
    simp only [Numeral.decimal, Decimal.value, hvalue, Option.map_none, Option.getD_none, hlead,
      List.length_nil]
    simp
  | between hsplit hlead =>
    simp only [Numeral.decimal, Decimal.value, ← hsplit, Option.map_none, Option.getD_none, hlead]
    rw [hsplit, List.length_append]
    congr 2
    omega

/-- Significant digits with an exponent are a literal. -/
theorem scientific_wellFormed (h : SignificantDigits digits) (layout : Layout) (lead : Int) :
    (scientificNumeral layout digits lead).WellFormed := by
  refine ⟨fun c hc => ?_, fun c hc => ?_, fun hpoint => ?_, .inl ?_, ?_⟩
  · exact h.isDigit c (List.mem_of_mem_take hc)
  · exact h.isDigit c (List.mem_of_mem_drop hc)
  · simpa [scientificNumeral] using hpoint
  · simpa [scientificNumeral] using h.ne_nil
  · rintro e ⟨⟩
    exact layout.exponentPart_wellFormed lead

/-- Significant digits with an exponent have no zeros that could go. -/
theorem scientific_trimmed (h : SignificantDigits digits) (layout : Layout) (lead : Int) :
    (scientificNumeral layout digits lead).Trimmed := by
  obtain ⟨c, rest, rfl⟩ := List.exists_cons_of_ne_nil h.ne_nil
  refine ⟨List.cons_ne_nil _ _, fun hzero => absurd hzero h.first, fun hpoint => ?_⟩
  have hrest : rest ≠ [] := by simpa [scientificNumeral] using hpoint
  have hlast := h.last
  rw [← List.singleton_append, List.getLast?_append_of_ne_nil _ hrest] at hlast
  exact ⟨hrest, hlast⟩

/-- The value of a literal with an exponent is that of its digits and the first place. -/
theorem scientific_value (h : SignificantDigits digits) (layout : Layout) (lead : Int) :
    (scientificNumeral layout digits lead).decimal.value =
      digitsValue digits * 10 ^ (lead + 1 - digits.length) := by
  simp only [scientificNumeral, Numeral.decimal, Decimal.value, List.take_append_drop,
    Option.map_some, Option.getD_some, layout.exponentPart_value, List.length_drop]
  have hlength := List.length_pos_iff.2 h.ne_nil
  congr 2
  omega

end SignificantDigits

/-! ## Numbers -/

/-- A positive number is at least the power of ten of its first digit and less than the next. -/
theorem pow_le_of_toDigits {n : Nat} (h : 0 < n) :
    10 ^ ((Nat.toDigits 10 n).length - 1) ≤ n ∧ n < 10 ^ (Nat.toDigits 10 n).length := by
  have hpos := Nat.length_toDigits_pos (b := 10) (n := n)
  refine ⟨?_, (Nat.length_toDigits_le_iff (by decide) hpos).1 le_rfl⟩
  rcases Nat.eq_zero_or_pos ((Nat.toDigits 10 n).length - 1) with hone | hmore
  · rwa [hone]
  · by_contra hlt
    have hle := (Nat.length_toDigits_le_iff (by decide) hmore).2 (not_le.1 hlt)
    omega

/-- The place of the first digit is the decimal logarithm. -/
theorem Decimal.log_value {d : Decimal} (h : 0 < d.coefficient) :
    Int.log 10 d.value = d.exponent + ((Nat.toDigits 10 d.coefficient).length - 1 : Nat) := by
  obtain ⟨hlow, hhigh⟩ := pow_le_of_toDigits h
  have hpos := Nat.length_toDigits_pos (b := 10) (n := d.coefficient)
  have hunit : (0 : ℚ) < 10 ^ d.exponent := zpow_pos (by norm_num) _
  apply log_eq_of_bounds
  · rw [zpow_add₀ (by norm_num), zpow_natCast, mul_comm, value]
    exact mul_le_mul_of_nonneg_right (by exact_mod_cast hlow) hunit.le
  · rw [add_assoc, zpow_add₀ (by norm_num), mul_comm, value]
    refine mul_lt_mul_of_pos_right ?_ hunit
    rw [← Nat.cast_succ, Nat.succ_eq_add_one, Nat.sub_add_cancel hpos, zpow_natCast]
    exact_mod_cast hhigh

/-- The text of a positive number is a literal that denotes it. -/
theorem Layout.text_spec {layout : Layout} (hpoint : layout.pointZero = false) {d : Decimal}
    (h : 0 < d.coefficient) :
    ∃ n : Numeral, layout.text d = n.text ∧ n.WellFormed ∧ n.Trimmed ∧ n.decimal.value = d.value ∧
      (layout.positionalFrom ≤ Int.log 10 d.value → Int.log 10 d.value < layout.positionalBelow →
        n.exponent = none) ∧
      (Int.log 10 d.value < layout.positionalFrom ∨ layout.positionalBelow ≤ Int.log 10 d.value →
        n.whole.length = 1 ∧ n.exponent = some (layout.exponentPart (Int.log 10 d.value))) := by
  obtain ⟨hdigits, zeros, hzeros⟩ := toDigits_eq_append_zeros h
  have hlead := Decimal.log_value h
  have hvalue : (digitsValue (dropEndZeros (Nat.toDigits 10 d.coefficient)) : ℚ) *
      10 ^ (Int.log 10 d.value + 1 - (dropEndZeros (Nat.toDigits 10 d.coefficient)).length) =
        d.value := by
    have hcoefficient := digitsValue_toDigits d.coefficient
    have hlength := congrArg List.length hzeros
    have hpos := Nat.length_toDigits_pos (b := 10) (n := d.coefficient)
    rw [hzeros, digitsValue_append, digitsValue_zeros, List.length_replicate, add_zero]
      at hcoefficient
    rw [List.length_append, List.length_replicate] at hlength
    generalize dropEndZeros (Nat.toDigits 10 d.coefficient) = digits at hcoefficient hlength ⊢
    have hexponent : Int.log 10 d.value + 1 - digits.length = d.exponent + zeros := by omega
    calc (digitsValue digits : ℚ) * 10 ^ (Int.log 10 d.value + 1 - digits.length)
        = (digitsValue digits * 10 ^ zeros : Nat) * 10 ^ d.exponent := by
          rw [hexponent, zpow_add₀ (by norm_num), zpow_natCast]
          push_cast
          ring
      _ = d.value := by rw [hcoefficient, Decimal.value]
  unfold text
  simp only [← hlead]
  split
  · next hrange =>
    have hpointed := pointed_positionalNumeral hdigits.ne_nil (Int.log 10 d.value)
    refine ⟨_, positional_eq_text hpoint _ _, hdigits.pointed_wellFormed hpointed,
      hdigits.pointed_trimmed hpointed, ?_, fun _ _ => rfl, fun hfar => ?_⟩
    · rw [SignificantDigits.pointed_value hpointed, hvalue]
    · omega
  · next hrange =>
    refine ⟨_, scientific_eq_text layout _ _, hdigits.scientific_wellFormed layout _,
      hdigits.scientific_trimmed layout _, ?_, fun hlow hhigh => ?_, fun _ => ?_⟩
    · rw [hdigits.scientific_value, hvalue]
    · exact absurd ⟨hlow, hhigh⟩ hrange
    · have hone := List.length_pos_iff.2 hdigits.ne_nil
      exact ⟨by rw [scientificNumeral, List.length_take]; omega, rfl⟩

end Reckon
