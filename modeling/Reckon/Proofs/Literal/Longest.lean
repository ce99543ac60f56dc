import Mathlib.Computability.RegularExpressions
import Reckon.Proofs.Literal

/-!
# The longest literal

`Literal.pattern` is the grammar of numeric literals as a regular expression, and what it matches
are the texts of well-formed numerals (`Literal.mem_pattern_iff`). `LongestMatch` says that a text
is the longest beginning that matches.

A scan reads the mantissa first and the exponent behind it. Each of the two goes at least as far as
any literal that stands there (`Numeral.WellFormed.exists_scan?`), so what is split off is the
longest literal (`Numeral.scan?_longest`), and nothing is split off only where no literal stands
(`Numeral.scan?_eq_none_iff`). The longest literal is still the longest if the text ends behind it
(`Numeral.scan?_cut`).
-/

namespace Reckon

/-! ## The grammar -/

namespace Literal

open RegularExpression (char star)

/-- One of some characters. -/
def oneOf : List Char → RegularExpression Char
  | [] => 0
  | c :: chars => char c + oneOf chars

def optional (e : RegularExpression Char) : RegularExpression Char :=
  e + 1

def digit : RegularExpression Char :=
  oneOf ['0', '1', '2', '3', '4', '5', '6', '7', '8', '9']

def digits : RegularExpression Char :=
  digit * star digit

/-- Digits with an optional point behind or among them, or digits behind a point. -/
def mantissa : RegularExpression Char :=
  digits * optional (char '.' * star digit) + char '.' * digits

def exponent : RegularExpression Char :=
  oneOf ['e', 'E'] * optional (oneOf ['+', '-']) * digits

/-- A numeric literal. -/
def pattern : RegularExpression Char :=
  mantissa * optional exponent

variable {w : List Char} {chars : List Char} {e e' : RegularExpression Char}

/-- A word of one expression and then one of another. -/
theorem mem_mul : w ∈ (e * e').matches' ↔ ∃ a ∈ e.matches', ∃ b ∈ e'.matches', a ++ b = w :=
  Language.mem_mul

/-- A word of either expression. -/
theorem mem_add : w ∈ (e + e').matches' ↔ w ∈ e.matches' ∨ w ∈ e'.matches' :=
  Language.mem_add _ _ _

/-- The word of one character. -/
theorem mem_char {c : Char} : w ∈ (char c).matches' ↔ w = [c] :=
  Iff.rfl

/-- A word of an expression, or none. -/
theorem mem_optional : w ∈ (optional e).matches' ↔ w ∈ e.matches' ∨ w = [] :=
  mem_add

/-- A word of one character out of some. -/
theorem mem_oneOf : w ∈ (oneOf chars).matches' ↔ ∃ c ∈ chars, w = [c] := by
  induction chars with
  | nil => exact iff_of_false (Language.notMem_zero w) nofun
  | cons c chars ih => rw [oneOf, mem_add, mem_char, ih, List.exists_mem_cons_iff]

/-- A word of such characters. -/
theorem mem_star_oneOf : w ∈ (star (oneOf chars)).matches' ↔ ∀ c ∈ w, c ∈ chars := by
  constructor
  · rintro ⟨words, rfl, hwords⟩ c hc
    obtain ⟨word, hword, hc⟩ := List.mem_flatten.1 hc
    obtain ⟨c', hc', rfl⟩ := mem_oneOf.1 (hwords word hword)
    exact List.mem_singleton.1 hc ▸ hc'
  · intro h
    refine Language.mem_kstar.2 ⟨w.map fun c => [c], (List.flatMap_singleton' w).symm, ?_⟩
    intro word hword
    obtain ⟨c, hc, rfl⟩ := List.mem_map.1 hword
    exact mem_oneOf.2 ⟨c, h c hc, rfl⟩

/-- The ten characters are those that are digits. -/
theorem mem_digits_iff {c : Char} :
    c ∈ ['0', '1', '2', '3', '4', '5', '6', '7', '8', '9'] ↔ c.isDigit := by
  constructor
  · simp only [List.mem_cons, List.not_mem_nil, or_false]
    rintro (rfl | rfl | rfl | rfl | rfl | rfl | rfl | rfl | rfl | rfl) <;> rfl
  · intro h
    simp only [Char.isDigit, Bool.and_eq_true, decide_eq_true_eq, UInt32.le_iff_toNat_le,
      ge_iff_le] at h
    have hall : ∀ n < 58, 48 ≤ n →
        Char.ofNat n ∈ ['0', '1', '2', '3', '4', '5', '6', '7', '8', '9'] := by decide
    have hc := hall c.toNat (Nat.lt_succ_of_le h.2) h.1
    rwa [Char.ofNat_toNat] at hc

/-- A word of digits, or the empty one. -/
theorem mem_star_digit : w ∈ (star digit).matches' ↔ ∀ c ∈ w, c.isDigit :=
  mem_star_oneOf.trans (forall₂_congr fun _ _ => mem_digits_iff)

/-- A word of at least one digit. -/
theorem mem_digits : w ∈ digits.matches' ↔ w ≠ [] ∧ ∀ c ∈ w, c.isDigit := by
  rw [digits, mem_mul]
  constructor
  · rintro ⟨first, hfirst, more, hmore, rfl⟩
    obtain ⟨c, hc, rfl⟩ := mem_oneOf.1 hfirst
    exact ⟨List.cons_ne_nil _ _,
      List.forall_mem_cons.2 ⟨mem_digits_iff.1 hc, mem_star_digit.1 hmore⟩⟩
  · rintro ⟨hne, hdigits⟩
    obtain ⟨c, more, rfl⟩ := List.exists_cons_of_ne_nil hne
    obtain ⟨hc, hmore⟩ := List.forall_mem_cons.1 hdigits
    exact ⟨[c], mem_oneOf.2 ⟨c, mem_digits_iff.2 hc, rfl⟩, more, mem_star_digit.2 hmore, rfl⟩

/-- The texts of exponents. -/
theorem mem_exponent_iff :
    w ∈ exponent.matches' ↔ ∃ e : ExponentPart, e.WellFormed ∧ e.text = w := by
  rw [exponent, mem_mul]
  constructor
  · rintro ⟨front, hfront, digits, hdigits, rfl⟩
    obtain ⟨mark, hmark, sign, hsign, rfl⟩ := mem_mul.1 hfront
    obtain ⟨c, hc, rfl⟩ := mem_oneOf.1 hmark
    obtain ⟨hne, hdigits⟩ := mem_digits.1 hdigits
    have hmark : c = 'e' ∨ c = 'E' := by simpa using hc
    rcases mem_optional.1 hsign with hsign | rfl
    · obtain ⟨s, hs, rfl⟩ := mem_oneOf.1 hsign
      refine ⟨⟨c, some s, digits⟩, ⟨hmark, ?_, hdigits, hne⟩, rfl⟩
      rintro s ⟨⟩
      simpa using hs
    · exact ⟨⟨c, none, digits⟩, ⟨hmark, nofun, hdigits, hne⟩, rfl⟩
  · rintro ⟨⟨mark, sign, digits⟩, ⟨hmark, hsign, hdigits, hne⟩, rfl⟩
    refine ⟨[mark] ++ sign.toList, mem_mul.2 ⟨[mark], ?_, sign.toList, ?_, rfl⟩, digits,
      mem_digits.2 ⟨hne, hdigits⟩, rfl⟩
    · exact mem_oneOf.2 ⟨mark, by simpa using hmark, rfl⟩
    · cases sign with
      | none => exact mem_optional.2 (.inr rfl)
      | some s => exact mem_optional.2 (.inl (mem_oneOf.2 ⟨s, by simpa using hsign s rfl, rfl⟩))

/-- A literal without an exponent is well formed if it has a digit, and no fraction without a point.
-/
theorem bare_wellFormed {n : Numeral} (hbare : n.exponent = none)
    (hwhole : ∀ c ∈ n.whole, c.isDigit) (hfraction : ∀ c ∈ n.fraction, c.isDigit)
    (hpoint : n.point ∨ n.fraction = []) (hdigit : n.whole ≠ [] ∨ n.fraction ≠ []) :
    n.WellFormed := by
  refine ⟨hwhole, hfraction, fun hnone => ?_, hdigit, fun e he => ?_⟩
  · exact hpoint.resolve_left (Bool.eq_false_iff.1 hnone)
  · rw [hbare] at he
    cases he

/-- The texts of literals without an exponent. -/
theorem mem_mantissa_iff :
    w ∈ mantissa.matches' ↔ ∃ n : Numeral, n.WellFormed ∧ n.exponent = none ∧ n.text = w := by
  rw [mantissa, mem_add, mem_mul, mem_mul]
  constructor
  · rintro (⟨whole, hwhole, behind, hbehind, rfl⟩ | ⟨point, hpoint, fraction, hfraction, rfl⟩)
    · obtain ⟨hne, hwhole⟩ := mem_digits.1 hwhole
      rcases mem_optional.1 hbehind with hbehind | rfl
      · obtain ⟨point, hpoint, fraction, hfraction, rfl⟩ := mem_mul.1 hbehind
        obtain rfl := mem_char.1 hpoint
        exact ⟨⟨whole, true, fraction, none⟩,
          bare_wellFormed rfl hwhole (mem_star_digit.1 hfraction) (.inl rfl) (.inl hne), rfl,
          by simp [Numeral.text]⟩
      · exact ⟨⟨whole, false, [], none⟩,
          bare_wellFormed rfl hwhole (List.forall_mem_nil _) (.inr rfl) (.inl hne), rfl,
          by simp [Numeral.text]⟩
    · obtain rfl := mem_char.1 hpoint
      obtain ⟨hne, hfraction⟩ := mem_digits.1 hfraction
      exact ⟨⟨[], true, fraction, none⟩,
        bare_wellFormed rfl (List.forall_mem_nil _) hfraction (.inl rfl) (.inr hne), rfl,
        by simp [Numeral.text]⟩
  · rintro ⟨⟨whole, point, fraction, exponent⟩, hn, rfl, rfl⟩
    cases point with
    | true =>
      by_cases hwhole : whole = []
      · subst hwhole
        have hne : fraction ≠ [] := hn.hasDigit.resolve_left fun h => h rfl
        exact .inr ⟨['.'], rfl, fraction, mem_digits.2 ⟨hne, hn.fraction⟩, by simp [Numeral.text]⟩
      · refine .inl ⟨whole, mem_digits.2 ⟨hwhole, hn.whole⟩, '.' :: fraction, ?_,
          by simp [Numeral.text]⟩
        exact mem_optional.2 (.inl (mem_mul.2
          ⟨['.'], rfl, fraction, mem_star_digit.2 hn.fraction, rfl⟩))
    | false =>
      obtain rfl : fraction = [] := hn.point rfl
      have hne : whole ≠ [] := hn.hasDigit.resolve_right fun h => h rfl
      exact .inl ⟨whole, mem_digits.2 ⟨hne, hn.whole⟩, [], mem_optional.2 (.inr rfl),
        by simp [Numeral.text]⟩

/-- The texts of literals are the texts of well-formed numerals. -/
theorem mem_pattern_iff :
    w ∈ pattern.matches' ↔ ∃ n : Numeral, n.WellFormed ∧ n.text = w := by
  rw [pattern, mem_mul]
  constructor
  · rintro ⟨front, hfront, behind, hbehind, rfl⟩
    obtain ⟨⟨whole, point, fraction, exponent⟩, hn, rfl, rfl⟩ := mem_mantissa_iff.1 hfront
    rcases mem_optional.1 hbehind with hbehind | rfl
    · obtain ⟨e, he, rfl⟩ := mem_exponent_iff.1 hbehind
      refine ⟨⟨whole, point, fraction, some e⟩, ⟨hn.whole, hn.fraction, hn.point, hn.hasDigit, ?_⟩,
        by simp [Numeral.text]⟩
      rintro e ⟨⟩
      exact he
    · exact ⟨_, hn, (List.append_nil _).symm⟩
  · rintro ⟨⟨whole, point, fraction, exponent⟩, hn, rfl⟩
    have hmantissa : Numeral.WellFormed ⟨whole, point, fraction, none⟩ :=
      bare_wellFormed rfl hn.whole hn.fraction
        ((Bool.eq_false_or_eq_true point).imp_right hn.point) hn.hasDigit
    refine ⟨_, mem_mantissa_iff.2 ⟨_, hmantissa, rfl, rfl⟩,
      (exponent.map ExponentPart.text).getD [], ?_, by simp [Numeral.text]⟩
    cases exponent with
    | none => exact mem_optional.2 (.inr rfl)
    | some e => exact mem_optional.2 (.inl (mem_exponent_iff.2 ⟨e, hn.exponent e rfl, rfl⟩))

end Literal

/-- Of all beginnings of `text ++ rest`, `text` is the longest that matches. -/
structure LongestMatch (e : RegularExpression Char) (text rest : List Char) : Prop where
  mem : text ∈ e.matches'
  longest : ∀ front behind, front ++ behind = text ++ rest → front ∈ e.matches' →
    front.length ≤ text.length

/-! ## The longest literal -/

/-- What is taken while something holds is no shorter than a front all of which it holds of. -/
theorem length_le_takeWhile {p : Char → Bool} {text : List Char} (h : ∀ c ∈ text, p c)
    (rest : List Char) : text.length ≤ ((text ++ rest).takeWhile p).length := by
  rw [List.takeWhile_append_of_pos h, List.length_append]
  exact Nat.le_add_right _ _

/-- Where an exponent stands, one is split off that goes at least as far. -/
theorem ExponentPart.WellFormed.exists_scan? {e : ExponentPart} (h : e.WellFormed)
    (rest : List Char) :
    ∃ e' rest', ExponentPart.scan? (e.text ++ rest) = some (e', rest') ∧
      e.text.length ≤ e'.text.length := by
  have hlength := length_le_takeWhile h.digits rest
  have hpos := List.length_pos_iff.2 h.digits_ne_nil
  have hdigits : ¬ ((e.digits ++ rest).takeWhile Char.isDigit).isEmpty := by
    rw [List.isEmpty_iff_length_eq_zero]
    omega
  refine ⟨⟨e.mark, e.sign, (e.digits ++ rest).takeWhile Char.isDigit⟩,
    (e.digits ++ rest).dropWhile Char.isDigit, ?_, ?_⟩
  · rw [text, List.cons_append, List.append_assoc, scan?, if_pos h.mark]
    simp only [scanSign_text h, if_neg hdigits]
  · simp only [text, List.length_cons, List.length_append]
    omega

namespace Numeral

/-- The digits and the point of a literal are split off at least as far as they go. -/
theorem WellFormed.le_scanMantissa {n : Numeral} (h : n.WellFormed) (hbare : n.exponent = none)
    (rest : List Char) :
    n.whole.length ≤ (scanMantissa (n.text ++ rest)).1.whole.length ∧
      (n.point → (scanMantissa (n.text ++ rest)).1.point) ∧
      n.fraction.length ≤ (scanMantissa (n.text ++ rest)).1.fraction.length := by
  obtain ⟨whole, point, fraction, exponent⟩ := n
  obtain rfl : exponent = none := hbare
  cases point with
  | true =>
    have htext : text ⟨whole, true, fraction, none⟩ ++ rest =
        whole ++ '.' :: (fraction ++ rest) := by simp [text]
    have hpoint : ∀ c ∈ ('.' :: (fraction ++ rest)).head?, ¬ c.isDigit := by
      rintro c ⟨⟩
      decide
    obtain ⟨htake, hdrop⟩ := splitDigits_append h.whole hpoint
    rw [htext, scanMantissa, htake, hdrop]
    exact ⟨le_rfl, fun _ => rfl, length_le_takeWhile h.fraction rest⟩
  | false =>
    obtain rfl : fraction = [] := h.point rfl
    have htext : text ⟨whole, false, [], none⟩ = whole := by simp [text]
    have hwhole : (scanMantissa (whole ++ rest)).1.whole =
        (whole ++ rest).takeWhile Char.isDigit := by
      unfold scanMantissa
      dsimp only
      split <;> rfl
    rw [htext, hwhole]
    refine ⟨length_le_takeWhile h.whole rest, ?_, Nat.zero_le _⟩
    rintro ⟨⟩

/-- A mantissa with a digit is split off, with an exponent or without. -/
theorem exists_scan?_of_hasDigit {source : List Char} (h : (scanMantissa source).1.hasDigit) :
    ∃ exponent rest, scan? source = some ({ (scanMantissa source).1 with exponent }, rest) := by
  have hbare : (scanMantissa source).1 = { (scanMantissa source).1 with exponent := none } := by
    unfold scanMantissa
    dsimp only
    split <;> rfl
  rw [scan?]
  simp only [if_pos h]
  cases ExponentPart.scan? (scanMantissa source).2 with
  | none => exact ⟨none, _, by rw [← hbare]⟩
  | some scanned => exact ⟨some scanned.1, _, rfl⟩

/-- A literal has a digit in front of the point or behind it. -/
theorem hasDigit_iff {n : Numeral} :
    n.hasDigit ↔ 0 < n.whole.length ∨ 0 < n.fraction.length := by
  rw [Numeral.hasDigit, Bool.not_eq_true', Bool.and_eq_false_iff, List.isEmpty_eq_false_iff,
    List.isEmpty_eq_false_iff, List.length_pos_iff, List.length_pos_iff]

/-- A literal is as long as its parts are together. -/
theorem length_text (n : Numeral) : n.text.length = n.whole.length + (if n.point then 1 else 0) +
    n.fraction.length + ((n.exponent.map ExponentPart.text).getD []).length := by
  rw [text, List.length_append, List.length_append, List.length_append]
  cases n.point <;> rfl

/-- Where a literal stands, one is split off that goes at least as far. -/
theorem WellFormed.exists_scan? {n : Numeral} (h : n.WellFormed) (rest : List Char) :
    ∃ n' rest', scan? (n.text ++ rest) = some (n', rest') ∧
      n.text.length ≤ n'.text.length := by
  obtain ⟨whole, point, fraction, exponent⟩ := n
  cases exponent with
  | none =>
    obtain ⟨hwhole, hpoint, hfraction⟩ := h.le_scanMantissa rfl rest
    have hdigit := hasDigit_iff.2
      ((hasDigit_iff.1 h.hasDigit_eq).imp (·.trans_le hwhole) (·.trans_le hfraction))
    obtain ⟨exponent, rest', hscan⟩ := exists_scan?_of_hasDigit hdigit
    refine ⟨_, rest', hscan, ?_⟩
    rw [length_text, length_text]
    dsimp only at hwhole hpoint hfraction ⊢
    have hone : (if point then 1 else 0) ≤
        if (scanMantissa (text ⟨whole, point, fraction, none⟩ ++ rest)).1.point then 1 else 0 := by
      cases point with
      | false => exact Nat.zero_le _
      | true => rw [hpoint rfl]
    simp only [Option.map_none, Option.getD_none, List.length_nil]
    omega
  | some e =>
    have he := h.exponent e rfl
    obtain ⟨e', rest', hscan, hlength⟩ := he.exists_scan? rest
    have hmark : ∀ c ∈ (e.text ++ rest).head?, ¬ c.isDigit ∧ c ≠ '.' := by
      rintro c ⟨⟩
      rcases he.mark with hmark | hmark <;> rw [hmark] <;> decide
    have hmantissa := h.scanMantissa_append hmark
    have hdigit : Numeral.hasDigit ⟨whole, point, fraction, none⟩ = true := h.hasDigit_eq
    refine ⟨⟨whole, point, fraction, some e'⟩, rest', ?_, ?_⟩
    · rw [text, Option.map_some, Option.getD_some, List.append_assoc, scan?, hmantissa]
      simp only [hdigit, if_true, hscan]
    · rw [length_text, length_text]
      simp only [Option.map_some, Option.getD_some]
      omega

variable {n : Numeral} {source rest : List Char}

/-- What is split off is the longest literal. -/
theorem scan?_longest (h : scan? source = some (n, rest)) :
    LongestMatch Literal.pattern n.text rest := by
  refine ⟨Literal.mem_pattern_iff.2 ⟨n, scan?_wellFormed h, rfl⟩, fun front behind heq hfront => ?_⟩
  obtain ⟨n', hn', rfl⟩ := Literal.mem_pattern_iff.1 hfront
  obtain ⟨m, rest', hscan, hle⟩ := hn'.exists_scan? behind
  rw [heq, scan?_append h, h] at hscan
  cases hscan
  exact hle

/-- Nothing is split off only where no literal stands. -/
theorem scan?_eq_none_iff : scan? source = none ↔
    ∀ front behind, front ++ behind = source → front ∉ Literal.pattern.matches' := by
  constructor
  · rintro h front behind rfl hfront
    obtain ⟨n, hn, rfl⟩ := Literal.mem_pattern_iff.1 hfront
    obtain ⟨n', rest', hscan, -⟩ := hn.exists_scan? behind
    rw [h] at hscan
    cases hscan
  · intro h
    by_contra hne
    obtain ⟨⟨n, rest⟩, hscan⟩ := Option.ne_none_iff_exists'.1 hne
    exact h n.text rest (scan?_append hscan)
      (Literal.mem_pattern_iff.2 ⟨n, scan?_wellFormed hscan, rfl⟩)

/-- A literal is known from its text. -/
theorem WellFormed.text_injective {n' : Numeral} (h : n.WellFormed) (h' : n'.WellFormed)
    (heq : n.text = n'.text) : n = n' := by
  have hscan := h.scan?_text
  rw [heq, h'.scan?_text] at hscan
  cases hscan
  rfl

/-- The longest literal is split off also where the text ends somewhere behind it. -/
theorem scan?_cut {front behind : List Char}
    (h : scan? (front ++ rest) = some (n, behind ++ rest)) : scan? front = some (n, behind) := by
  have htext : n.text ++ behind = front :=
    List.append_cancel_right ((List.append_assoc _ _ _).trans (scan?_append h))
  obtain ⟨n', behind', hscan, hle⟩ := (scan?_wellFormed h).exists_scan? behind
  have hlongest := (scan?_longest h).longest n'.text (behind' ++ rest)
    (by rw [← List.append_assoc, scan?_append hscan, List.append_assoc])
    (scan?_longest hscan).mem
  obtain ⟨hsame, rfl⟩ := List.append_inj (scan?_append hscan) (hlongest.antisymm hle)
  rw [← htext, hscan, (scan?_wellFormed hscan).text_injective (scan?_wellFormed h) hsame]

/-- Where no literal is read, none is read from the front alone. -/
theorem scan?_cut_none {front : List Char} (h : scan? (front ++ rest) = none) :
    scan? front = none := by
  refine scan?_eq_none_iff.2 fun text behind htext => ?_
  exact scan?_eq_none_iff.1 h text (behind ++ rest) (by rw [← List.append_assoc, htext])

end Numeral

end Reckon
