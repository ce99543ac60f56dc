import Reckon.Proofs.Writing

/-!
# Counting digits

How many digits a number is written with, by the number: digits denote less than the power of ten
of their count (`digitsValue_lt`), and at least the power of ten of their first place, unless they
start with a zero (`pow_le_digitsValue`). So a number has no more digits than another if no zero
could be left out at either end, and it has the same value as that in units of some place
(`Decimal.coefficient_lt`).
-/

namespace Reckon

section
variable {c : Char} {digits : List Char} {k : Nat}

/-- The first digit counts the more, the more digits are behind it. -/
theorem digitsValue_cons (c : Char) (digits : List Char) :
    digitsValue (c :: digits) = digitsValue [c] * 10 ^ digits.length + digitsValue digits :=
  digitsValue_append [c] digits

/-- One digit counts as the number that it stands for. -/
theorem digitsValue_singleton (c : Char) : digitsValue [c] = c.toNat - 48 := by
  show 10 * 0 + (c.toNat - 48) = _
  omega

/-- A digit denotes less than ten, and only one of them denotes zero. -/
theorem digitsValue_singleton_lt (h : c.isDigit) : digitsValue [c] < 10 := by
  have hrange : 48 ≤ c.toNat ∧ c.toNat ≤ 57 := Char.isDigit_iff_toNat.1 h
  rw [digitsValue_singleton]
  omega

/-- A digit other than zero counts. -/
theorem digitsValue_singleton_pos (h : c.isDigit) (hzero : c ≠ '0') : 0 < digitsValue [c] := by
  have hrange : 48 ≤ c.toNat ∧ c.toNat ≤ 57 := Char.isDigit_iff_toNat.1 h
  have hne : c.toNat ≠ '0'.toNat := fun hsame => hzero (Char.toNat_inj.1 hsame)
  have hcode : '0'.toNat = 48 := rfl
  rw [digitsValue_singleton]
  omega

/-- Digits count less than one with as many zeros behind it. -/
theorem digitsValue_lt (h : ∀ c ∈ digits, c.isDigit) : digitsValue digits < 10 ^ digits.length := by
  induction digits with
  | nil => exact Nat.one_pos
  | cons c digits ih =>
    obtain ⟨hc, hdigits⟩ := List.forall_mem_cons.1 h
    have hfirst := digitsValue_singleton_lt hc
    rw [digitsValue_cons, List.length_cons, Nat.pow_succ]
    calc digitsValue [c] * 10 ^ digits.length + digitsValue digits
        < digitsValue [c] * 10 ^ digits.length + 10 ^ digits.length :=
          Nat.add_lt_add_left (ih hdigits) _
      _ = (digitsValue [c] + 1) * 10 ^ digits.length := (Nat.succ_mul _ _).symm
      _ ≤ 10 * 10 ^ digits.length := Nat.mul_le_mul_right _ hfirst
      _ = 10 ^ digits.length * 10 := Nat.mul_comm _ _

/-- Digits that do not begin with a zero count as much as their first place at least. -/
theorem pow_le_digitsValue (h : ∀ c ∈ digits, c.isDigit) (hne : digits ≠ [])
    (hfirst : digits.head? ≠ some '0') : 10 ^ (digits.length - 1) ≤ digitsValue digits := by
  obtain ⟨c, rest, rfl⟩ := List.exists_cons_of_ne_nil hne
  have hc : 0 < digitsValue [c] :=
    digitsValue_singleton_pos (h c List.mem_cons_self) fun hzero => hfirst (congrArg some hzero)
  rw [digitsValue_cons, List.length_cons, Nat.add_sub_cancel]
  exact (Nat.le_mul_of_pos_left _ hc).trans (Nat.le_add_right _ _)

/-- Digits that do not start with a zero are no more than a larger power of ten has zeros. -/
theorem length_le_of_digitsValue_lt (h : ∀ c ∈ digits, c.isDigit)
    (hfirst : digits.head? ≠ some '0') (hlt : digitsValue digits < 10 ^ k) : digits.length ≤ k := by
  by_cases hne : digits = []
  · rw [hne]
    exact Nat.zero_le k
  · have hless := (pow_le_digitsValue h hne hfirst).trans_lt hlt
    have hcount := (Nat.pow_lt_pow_iff_right (by decide)).1 hless
    omega

/-- Zeros in front make no difference to what digits denote. -/
theorem digitsValue_dropWhile (digits : List Char) :
    digitsValue (digits.dropWhile (· = '0')) = digitsValue digits := by
  induction digits with
  | nil => rfl
  | cons c digits ih =>
    by_cases hc : c = '0'
    · subst hc
      have hzero : digitsValue ['0'] = 0 := rfl
      rw [digitsValue_cons, hzero, Nat.zero_mul, Nat.zero_add]
      exact ih
    · rw [List.dropWhile_cons_of_neg (by simpa using hc)]

/-- A number whose last digit is not a zero is no multiple of ten. -/
theorem digitsValue_mod_ten (h : ∀ c ∈ digits, c.isDigit) (hne : digits ≠ [])
    (hlast : digits.getLast? ≠ some '0') : digitsValue digits % 10 ≠ 0 := by
  obtain ⟨front, c, rfl⟩ := (List.eq_nil_or_concat digits).resolve_left hne
  rw [List.concat_eq_append] at h hlast ⊢
  rw [List.getLast?_concat] at hlast
  have hc : c.isDigit := h c List.mem_concat_self
  have hpos := digitsValue_singleton_pos hc fun hzero => hlast (congrArg some hzero)
  have hlt := digitsValue_singleton_lt hc
  rw [digitsValue_append, List.length_singleton, Nat.pow_one]
  omega

end

/-- The digits of a numeral from the first that is not a zero. -/
def Numeral.significant (n : Numeral) : List Char :=
  (n.whole ++ n.fraction).dropWhile (· = '0')

/-- A coefficient below a power of ten has as few significant digits. -/
theorem Numeral.length_significant_le {n : Numeral} (h : n.WellFormed) {k : Nat}
    (hlt : n.decimal.coefficient < 10 ^ k) : n.significant.length ≤ k := by
  have hdigits : ∀ c ∈ n.significant, c.isDigit := by
    intro c hc
    rcases List.mem_append.1 (List.dropWhile_subset _ hc) with hc | hc
    · exact h.whole c hc
    · exact h.fraction c hc
  have hfirst : n.significant.head? ≠ some '0' := by
    intro hzero
    have hhead := List.head?_dropWhile_not (fun c => decide (c = '0')) (n.whole ++ n.fraction)
    rw [show (n.whole ++ n.fraction).dropWhile (fun c => decide (c = '0')) = n.significant from rfl,
      hzero] at hhead
    exact absurd hhead (by decide)
  have hvalue : digitsValue n.significant = n.decimal.coefficient := digitsValue_dropWhile _
  exact length_le_of_digitsValue_lt hdigits hfirst (hvalue.trans_lt hlt)

/-- A number that is so many units of some place has no more digits than the count, if it does not
end in a zero. -/
theorem Decimal.coefficient_lt {d : Decimal} {m digits : Nat} {place : Int}
    (hlast : d.coefficient % 10 ≠ 0) (hvalue : d.value = m * 10 ^ place)
    (hm : m ≤ 10 ^ digits) (hdigits : 0 < digits) : d.coefficient < 10 ^ digits := by
  have hten : (10 : ℚ) ≠ 0 := by norm_num
  have hpower : 10 ^ digits % 10 = 0 := Nat.mod_eq_zero_of_dvd (dvd_pow_self 10 hdigits.ne')
  rw [value] at hvalue
  rcases lt_or_ge d.exponent place with hless | hge
  · -- a larger unit would leave a zero at the end
    obtain ⟨k, hk⟩ := Int.eq_ofNat_of_zero_le (by omega : 0 ≤ place - d.exponent - 1)
    rw [show place = d.exponent + (k + 1 : Nat) by omega, zpow_add₀ hten, zpow_natCast,
      mul_left_comm, mul_comm] at hvalue
    have hcount : (d.coefficient : ℚ) = (m * 10 ^ (k + 1) : Nat) := by
      have := mul_left_cancel₀ (zpow_ne_zero d.exponent hten) hvalue
      exact_mod_cast this
    rw [Nat.cast_inj.1 hcount] at hlast
    exact absurd (Nat.mod_eq_zero_of_dvd (dvd_mul_of_dvd_right (dvd_pow_self 10 k.succ_ne_zero) m))
      hlast
  · obtain ⟨k, hk⟩ := Int.eq_ofNat_of_zero_le (by omega : 0 ≤ d.exponent - place)
    rw [show d.exponent = place + (k : Nat) by omega, zpow_add₀ hten, zpow_natCast,
      mul_left_comm, mul_comm (m : ℚ)] at hvalue
    have hcount : (d.coefficient * 10 ^ k : Nat) = (m : ℚ) := by
      have := mul_left_cancel₀ (zpow_ne_zero place hten) hvalue
      exact_mod_cast this
    have hle : d.coefficient ≤ m :=
      (Nat.le_mul_of_pos_right _ (Nat.pow_pos (by decide))).trans_eq (Nat.cast_inj.1 hcount)
    refine lt_of_le_of_ne (hle.trans hm) fun hsame => hlast ?_
    rw [hsame, hpower]

end Reckon
