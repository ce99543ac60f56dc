import Mathlib.Data.List.TakeWhile
import Reckon.Lexer

/-!
# Numeric literals

`Numeral.WellFormed` says what a numeric literal is: digits with an optional point, at least one
digit on either side of it, and an optional exponent with at least one digit. Whatever
`Numeral.scan?` splits off is well formed (`Numeral.scan?_wellFormed`), and it splits nothing off
only where neither a digit stands nor a point with a digit behind it (`Numeral.scan?_eq_none`).
Conversely it splits off any literal behind which no more of one follows
(`Numeral.WellFormed.scan?_append`).
-/

namespace Reckon

/-- An exponent: a mark, an optional sign and at least one digit. -/
structure ExponentPart.WellFormed (e : ExponentPart) : Prop where
  mark : e.mark = 'e' ∨ e.mark = 'E'
  sign : ∀ c ∈ e.sign, c = '+' ∨ c = '-'
  digits : ∀ c ∈ e.digits, c.isDigit
  digits_ne_nil : e.digits ≠ []

/-- A numeric literal: digits, an optional point with digits behind it, at least one digit on
either side of the point, and an optional exponent. -/
structure Numeral.WellFormed (n : Numeral) : Prop where
  whole : ∀ c ∈ n.whole, c.isDigit
  fraction : ∀ c ∈ n.fraction, c.isDigit
  point : n.point = false → n.fraction = []
  hasDigit : n.whole ≠ [] ∨ n.fraction ≠ []
  exponent : ∀ e ∈ n.exponent, e.WellFormed

/-- One digit is a literal. -/
theorem Numeral.WellFormed.digit (c : Char) (h : c.isDigit) :
    WellFormed ⟨[c], false, [], none⟩ :=
  ⟨List.forall_mem_singleton.2 h, nofun, fun _ => rfl, .inl (List.cons_ne_nil _ _), nofun⟩

/-- Digits in front are digits. -/
theorem isDigit_of_mem_takeWhile {text : List Char} :
    ∀ c ∈ text.takeWhile Char.isDigit, c.isDigit :=
  fun _ hc => List.mem_takeWhile_imp hc

namespace ExponentPart

/-- A sign is a plus or a minus. -/
theorem scanSign_sign (text : List Char) : ∀ c ∈ (scanSign text).1, c = '+' ∨ c = '-' := by
  intro c hc
  unfold scanSign at hc
  split at hc
  · exact .inl (Option.some.inj hc).symm
  · exact .inr (Option.some.inj hc).symm
  · cases hc

/-- An exponent that is read is well formed. -/
theorem scan?_wellFormed {text rest : List Char} {e : ExponentPart}
    (h : scan? text = some (e, rest)) : e.WellFormed := by
  cases text with
  | nil => cases h
  | cons mark behind =>
    simp only [scan?] at h
    split at h
    · next hmark =>
      split at h
      · cases h
      · next hdigits =>
        cases h
        exact ⟨hmark, scanSign_sign behind, isDigit_of_mem_takeWhile,
          fun hnil => hdigits (List.isEmpty_iff.2 hnil)⟩
    · cases h

/-- The characters of an exponent. -/
theorem WellFormed.text_cases {e : ExponentPart} (h : e.WellFormed) {c : Char} (hc : c ∈ e.text) :
    c.isDigit ∨ c ∈ ['e', 'E', '+', '-'] := by
  rw [text, List.mem_cons, List.mem_append, Option.mem_toList] at hc
  rcases hc with rfl | hc | hc
  · rcases h.mark with hmark | hmark <;> rw [hmark] <;> exact .inr (by decide)
  · rcases h.sign c hc with rfl | rfl <;> exact .inr (by decide)
  · exact .inl (h.digits c hc)

end ExponentPart

namespace Numeral

/-- The digits of a mantissa that has one. -/
theorem scanMantissa_wellFormed {text : List Char} (h : (scanMantissa text).1.hasDigit) :
    (scanMantissa text).1.WellFormed := by
  unfold scanMantissa at h ⊢
  dsimp only at h ⊢
  split at h <;> simp only [hasDigit, Bool.not_eq_true', Bool.and_eq_false_iff,
    List.isEmpty_eq_false_iff] at h
  · refine ⟨isDigit_of_mem_takeWhile, isDigit_of_mem_takeWhile, fun hpoint => ?_, h, fun e he => ?_⟩
    · cases hpoint
    · cases he
  · refine ⟨isDigit_of_mem_takeWhile, fun c hc => ?_, fun _ => rfl, h, fun e he => ?_⟩
    · cases hc
    · cases he

/-- A literal that is read is well formed. -/
theorem scan?_wellFormed {text rest : List Char} {n : Numeral} (h : scan? text = some (n, rest)) :
    n.WellFormed := by
  simp only [scan?] at h
  split at h
  · next hdigit =>
    obtain ⟨hwhole, hfraction, hpoint, hany, hexponent⟩ := scanMantissa_wellFormed hdigit
    split at h
    · next hscan =>
      cases h
      refine ⟨hwhole, hfraction, hpoint, hany, ?_⟩
      rintro e ⟨⟩
      exact ExponentPart.scan?_wellFormed hscan
    · cases h
      exact ⟨hwhole, hfraction, hpoint, hany, hexponent⟩
  · cases h

/-- Where no numeral is split off, neither a digit stands nor a point in front of one. -/
theorem scan?_eq_none {c : Char} {rest : List Char} (h : scan? (c :: rest) = none) :
    ¬ c.isDigit ∧ (c = '.' → ∀ d ∈ rest.head?, ¬ d.isDigit) := by
  have hnone : ¬ (scanMantissa (c :: rest)).1.hasDigit := by
    intro hdigit
    simp only [scan?, if_pos hdigit] at h
    split at h <;> cases h
  constructor
  · intro hc
    apply hnone
    unfold scanMantissa
    dsimp only
    rw [List.takeWhile_cons_of_pos hc]
    split <;> rfl
  · rintro rfl d hd hdigit
    cases rest with
    | nil => cases hd
    | cons d' rest =>
      cases hd
      apply hnone
      unfold scanMantissa
      simp [hasDigit, hdigit]

/-- The characters of a numeral. -/
theorem WellFormed.text_cases {n : Numeral} (h : n.WellFormed) {c : Char} (hc : c ∈ n.text) :
    c.isDigit ∨ c ∈ ['.', 'e', 'E', '+', '-'] := by
  rw [text, List.mem_append, List.mem_append, List.mem_append] at hc
  rcases hc with ((hc | hc) | hc) | hc
  · exact .inl (h.whole c hc)
  · split at hc
    · exact .inr (List.mem_cons.2 (.inl (List.mem_singleton.1 hc)))
    · cases hc
  · exact .inl (h.fraction c hc)
  · cases hexponent : n.exponent with
    | none =>
      rw [hexponent] at hc
      cases hc
    | some e =>
      rw [hexponent] at hc
      rcases (h.exponent e hexponent).text_cases hc with hdigit | hmark
      · exact .inl hdigit
      · exact .inr (List.mem_cons_of_mem _ hmark)

/-- A well-formed literal has at least one digit. -/
theorem WellFormed.text_ne_nil {n : Numeral} (h : n.WellFormed) : n.text ≠ [] := by
  intro hnil
  simp only [text, List.append_eq_nil_iff] at hnil
  rcases h.hasDigit with hdigits | hdigits
  · exact hdigits hnil.1.1.1
  · exact hdigits hnil.1.2

end Numeral

/-! ## Reading a literal back -/

/-- Digits are split off as far as they go. -/
theorem splitDigits_append {digits rest : List Char} (h : ∀ c ∈ digits, c.isDigit)
    (hrest : ∀ c ∈ rest.head?, ¬ c.isDigit) :
    (digits ++ rest).takeWhile Char.isDigit = digits ∧
      (digits ++ rest).dropWhile Char.isDigit = rest := by
  rw [List.takeWhile_append_of_pos h, List.dropWhile_append_of_pos h]
  cases rest with
  | nil => simp
  | cons c rest => simp [hrest c rfl]

namespace ExponentPart

/-- The sign of an exponent is read back. -/
theorem scanSign_text {e : ExponentPart} (h : e.WellFormed) (rest : List Char) :
    scanSign (e.sign.toList ++ (e.digits ++ rest)) = (e.sign, e.digits ++ rest) := by
  cases hsign : e.sign with
  | some c => rcases h.sign c hsign with rfl | rfl <;> rfl
  | none =>
    obtain ⟨c, digits, hdigits⟩ := List.exists_cons_of_ne_nil h.digits_ne_nil
    have hc : c.isDigit := h.digits c (hdigits ▸ List.mem_cons_self ..)
    rw [hdigits]
    show scanSign (c :: (digits ++ rest)) = (none, c :: (digits ++ rest))
    unfold scanSign
    split
    · next heq =>
      cases heq
      cases hc
    · next heq =>
      cases heq
      cases hc
    · rfl

/-- An exponent is read back in front of anything but a digit. -/
theorem scan?_text {e : ExponentPart} (h : e.WellFormed) {rest : List Char}
    (hrest : ∀ c ∈ rest.head?, ¬ c.isDigit) : scan? (e.text ++ rest) = some (e, rest) := by
  obtain ⟨htake, hdrop⟩ := splitDigits_append h.digits hrest
  have hdigits : ¬ e.digits.isEmpty := fun hnil => h.digits_ne_nil (List.isEmpty_iff.1 hnil)
  rw [text, List.cons_append, List.append_assoc, scan?, if_pos h.mark]
  simp only [scanSign_text h, htake, hdrop, if_neg hdigits]

end ExponentPart

/-- The text does not go on with a character that could belong to a numeral. -/
def Numeral.Ends (rest : List Char) : Prop :=
  ∀ c ∈ rest.head?, ¬ c.isDigit ∧ c ∉ ['.', 'e', 'E']

namespace Numeral

/-- A literal may end where the text does. -/
theorem ends_nil : Ends [] := nofun

/-- Where a literal may end, there is no exponent. -/
theorem Ends.scan?_exponent {rest : List Char} (h : Ends rest) :
    ExponentPart.scan? rest = none := by
  cases rest with
  | nil => rfl
  | cons c rest =>
    have hc := (h c rfl).2
    simp only [List.mem_cons, List.not_mem_nil, or_false, not_or] at hc
    rw [ExponentPart.scan?, if_neg (not_or.2 hc.2)]

/-- The digits and the point of a literal are split off in front of its exponent. -/
theorem WellFormed.scanMantissa_append {n : Numeral} (h : n.WellFormed) {rest : List Char}
    (hrest : ∀ c ∈ rest.head?, ¬ c.isDigit ∧ c ≠ '.') :
    scanMantissa (n.whole ++ (if n.point then ['.'] else []) ++ n.fraction ++ rest) =
      ({ n with exponent := none }, rest) := by
  obtain ⟨whole, point, fraction, exponent⟩ := n
  cases point with
  | true =>
    have hpoint : ∀ c ∈ ('.' :: (fraction ++ rest)).head?, ¬ c.isDigit := by
      intro c hc
      cases hc
      decide
    obtain ⟨htake, hdrop⟩ := splitDigits_append h.whole hpoint
    obtain ⟨htake', hdrop'⟩ := splitDigits_append h.fraction fun c hc => (hrest c hc).1
    rw [if_pos rfl, List.append_assoc, List.append_assoc, List.singleton_append, scanMantissa]
    simp only [htake, hdrop, htake', hdrop']
  | false =>
    obtain rfl : fraction = [] := h.point rfl
    obtain ⟨htake, hdrop⟩ := splitDigits_append h.whole fun c hc => (hrest c hc).1
    simp only [Bool.false_eq_true, if_false, List.append_nil, scanMantissa, htake, hdrop]
    split
    · exact absurd rfl (hrest _ rfl).2
    · rfl

/-- A well-formed literal has a digit. -/
theorem WellFormed.hasDigit_eq {n : Numeral} (h : n.WellFormed) : n.hasDigit = true := by
  rw [Numeral.hasDigit, Bool.not_eq_true', Bool.and_eq_false_iff]
  exact h.hasDigit.imp List.isEmpty_eq_false_iff.2 List.isEmpty_eq_false_iff.2

/-- A literal is read back, unless more of it follows. -/
theorem WellFormed.scan?_append {n : Numeral} (h : n.WellFormed) {rest : List Char}
    (hrest : Ends rest) : scan? (n.text ++ rest) = some (n, rest) := by
  obtain ⟨whole, point, fraction, exponent⟩ := n
  have hdigit : Numeral.hasDigit ⟨whole, point, fraction, none⟩ = true := h.hasDigit_eq
  cases exponent with
  | none =>
    have hmantissa := h.scanMantissa_append fun c hc =>
      ⟨(hrest c hc).1, fun hpoint => (hrest c hc).2 (hpoint ▸ List.mem_cons_self ..)⟩
    rw [text, Option.map_none, Option.getD_none, List.append_nil, scan?, hmantissa]
    simp only [hdigit, if_true, hrest.scan?_exponent]
  | some e =>
    have he := h.exponent e rfl
    have hmark : ∀ c ∈ (e.text ++ rest).head?, ¬ c.isDigit ∧ c ≠ '.' := by
      intro c hc
      cases hc
      rcases he.mark with hmark | hmark <;> rw [hmark] <;> decide
    have hmantissa := h.scanMantissa_append hmark
    rw [text, Option.map_some, Option.getD_some, List.append_assoc, scan?, hmantissa]
    simp only [hdigit, if_true, ExponentPart.scan?_text he fun c hc => (hrest c hc).1]

/-- The text of a literal is read back as a whole. -/
theorem WellFormed.scan?_text {n : Numeral} (h : n.WellFormed) : scan? n.text = some (n, []) := by
  have hscan := h.scan?_append ends_nil
  rwa [List.append_nil] at hscan

/-- Nothing is read where neither a digit nor a point stands. -/
theorem scan?_mark {c : Char} (hdigit : ¬ c.isDigit) (hpoint : c ≠ '.') (rest : List Char) :
    scan? (c :: rest) = none := by
  have hnone : (scanMantissa (c :: rest)).1.hasDigit = false := by
    unfold scanMantissa
    simp only [List.takeWhile_cons_of_neg hdigit, List.dropWhile_cons_of_neg hdigit]
    split
    · next heq => exact absurd (List.cons.inj heq).1 hpoint
    · rfl
  rw [scan?]
  simp only [hnone]
  rfl

end Numeral

end Reckon
