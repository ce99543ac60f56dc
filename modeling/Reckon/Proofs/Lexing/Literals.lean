import Reckon.Proofs.Doubles.Nearest
import Reckon.Proofs.Lexing.Reading
import Reckon.Proofs.Literal.Longest
import Reckon.Proofs.Writing

/-!
# The tokens of literals

`Numeral.value` is the number that a literal denotes. The token of a literal is the double nearest
to that number, or an invalid token if it is too large for one (`Lexeme.ofNumeral_number`,
`Lexeme.ofNumeral_invalid`), so literals that denote one number have one token
(`Lexeme.ofNumeral_congr`).

Where a token starts at the front of a literal, the longest literal that stands there is read as a
whole (`Cursor.next_literal`). `token_of_literal` says both of all tokens of a text.
-/

namespace Reckon

/-! ## What a literal denotes -/

/-- The number that a literal denotes: its digits, those behind the point as a fraction, times a
power of ten. -/
def Numeral.value (n : Numeral) : ℚ :=
  (digitsValue n.whole + digitsValue n.fraction / 10 ^ n.fraction.length) *
    10 ^ (n.exponent.map ExponentPart.value).getD 0

/-- The places behind the point count for the exponent. -/
theorem Numeral.decimal_value (n : Numeral) : n.decimal.value = n.value := by
  have hten : (10 : ℚ) ≠ 0 := by norm_num
  rw [value, Decimal.value, decimal]
  dsimp only
  rw [digitsValue_append, zpow_sub₀ hten, zpow_natCast, Nat.cast_add, Nat.cast_mul, Nat.cast_pow,
    Nat.cast_ofNat]
  field_simp

namespace Lexeme

variable {n n' : Numeral}

/-- The text of a literal stays what it is. -/
@[simp] theorem ofNumeral_text (n : Numeral) : (ofNumeral n).text = n.text := by
  unfold ofNumeral
  split <;> rfl

/-- Below the bound the token is the nearest double. -/
theorem ofNumeral_number (h : n.value < overflowBound) :
    ∃ x, (ofNumeral n).token = .number x ∧ NearestDouble n.value x := by
  rw [← n.decimal_value] at h ⊢
  obtain ⟨x, hx, hnear, -⟩ := Decimal.double?_nearest h
  refine ⟨x, ?_, hnear⟩
  rw [ofNumeral, hx]

/-- A literal that is too large is invalid. -/
theorem ofNumeral_invalid (h : overflowBound ≤ n.value) : (ofNumeral n).token = .invalid := by
  rw [ofNumeral, Decimal.double?_eq_none (n.decimal_value ▸ h)]

/-- Literals that denote the same number have the same token. -/
theorem ofNumeral_congr (h : n.value = n'.value) :
    (ofNumeral n).token = (ofNumeral n').token := by
  rcases lt_or_ge n.value overflowBound with hlt | hge
  · obtain ⟨x, hx, hnear⟩ := ofNumeral_number hlt
    obtain ⟨x', hx', hnear'⟩ := ofNumeral_number (h ▸ hlt)
    rw [hx, hx', hnear.unique (h ▸ hnear')]
  · rw [ofNumeral_invalid hge, ofNumeral_invalid (h ▸ hge)]

end Lexeme

/-! ## Where a literal starts -/

/-- A digit stands in front, or a point with a digit behind it. -/
inductive StartsLiteral : List Char → Prop
  | digit {c : Char} {rest : List Char} : c.isDigit → StartsLiteral (c :: rest)
  | point {c : Char} {rest : List Char} : c.isDigit → StartsLiteral ('.' :: c :: rest)

namespace Numeral

variable {n : Numeral} {source rest : List Char}

/-- A literal is split off where one starts. -/
theorem exists_scan?_of_starts (h : StartsLiteral source) :
    ∃ n rest, scan? source = some (n, rest) := by
  have hsome : scan? source ≠ none := by
    intro hnone
    cases h with
    | digit hc => exact (scan?_eq_none hnone).1 hc
    | point hc => exact (scan?_eq_none hnone).2 rfl _ rfl hc
  obtain ⟨⟨n, rest⟩, hscan⟩ := Option.ne_none_iff_exists'.1 hsome
  exact ⟨n, rest, hscan⟩

/-- What is split off is known from being the longest literal. -/
theorem scan?_eq_some (hn : n.WellFormed) (hlongest : LongestMatch Literal.pattern n.text rest) :
    scan? (n.text ++ rest) = some (n, rest) := by
  obtain ⟨n', rest', hscan, hle⟩ := hn.exists_scan? rest
  have hge := hlongest.longest n'.text rest' (scan?_append hscan) (scan?_longest hscan).mem
  obtain ⟨htext, rfl⟩ := List.append_inj (scan?_append hscan) (hge.antisymm hle)
  rw [hscan, (scan?_wellFormed hscan).text_injective hn htext]

end Numeral

/-- Where a literal is split off in front of the next token, that is its token. -/
theorem Cursor.next_literal {text rest : List Char} {before : List Placed} {d : Cursor}
    {n : Numeral} (h : (start text).Reads before d)
    (hscan : Numeral.scan? (text.drop (d.next.1.position - 1)) = some (n, rest)) :
    d.next.1.token = (Lexeme.ofNumeral n).token ∧
      d.next.2 = ⟨rest, d.next.1.position + n.text.length⟩ := by
  rcases h.text_cases with hnil | ⟨first, behind, -, htext, hnext⟩
  · rw [hnil] at hscan
    exact absurd (Numeral.scan?_length hscan) (Nat.not_lt_zero _)
  · rw [htext] at hscan
    have hlexeme : Lexeme.scan first behind = (Lexeme.ofNumeral n, rest) := by
      rw [Lexeme.scan, hscan]
    rw [hlexeme, Lexeme.ofNumeral_text] at hnext
    exact ⟨congrArg (Placed.token ·.1) hnext, congrArg Prod.snd hnext⟩

/-- Where a token starts with a digit, or with a point in front of a digit, it covers the longest
literal that stands there. It is the double nearest to the number that the literal denotes, ties
going to the even mantissa, or invalid as a whole if that is too large. Any other token, of the same
text or of another one, whose literal denotes the same number is the same. -/
theorem token_of_literal {source : String} {before after : List Placed} {t : Placed}
    (hsplit : tokens source = before ++ t :: after)
    (hstart : StartsLiteral (source.toList.drop (t.position - 1))) :
    ∃ (n : Numeral) (rest : List Char),
      n.WellFormed ∧ n.text ++ rest = source.toList.drop (t.position - 1) ∧
      LongestMatch Literal.pattern n.text rest ∧
      (∃ d, (Cursor.start source.toList).Reads before d ∧
        d.next = (t, ⟨rest, t.position + n.text.length⟩)) ∧
      (n.value < overflowBound → ∃ x, t.token = .number x ∧ NearestDouble n.value x) ∧
      (overflowBound ≤ n.value → t.token = .invalid) ∧
      ∀ source' before' after' t' (n' : Numeral) rest', tokens source' = before' ++ t' :: after' →
        n'.WellFormed → n'.text ++ rest' = source'.toList.drop (t'.position - 1) →
        LongestMatch Literal.pattern n'.text rest' → n'.value = n.value → t'.token = t.token := by
  obtain ⟨n, rest, hscan⟩ := Numeral.exists_scan?_of_starts hstart
  obtain ⟨d, hreads, rfl⟩ := Cursor.exists_reads hsplit
  obtain ⟨htoken, hbehind⟩ := Cursor.next_literal hreads hscan
  refine ⟨n, rest, Numeral.scan?_wellFormed hscan, Numeral.scan?_append hscan,
    Numeral.scan?_longest hscan, ⟨d, hreads, Prod.ext rfl hbehind⟩, fun hlt => ?_,
    fun hge => ?_, ?_⟩
  · rw [htoken]
    exact Lexeme.ofNumeral_number hlt
  · rw [htoken, Lexeme.ofNumeral_invalid hge]
  · intro source' before' after' t' n' rest' hsplit' hn' htext' hlongest' hvalue
    obtain ⟨d', hreads', rfl⟩ := Cursor.exists_reads hsplit'
    have hscan' := Numeral.scan?_eq_some hn' hlongest'
    rw [htext'] at hscan'
    rw [htoken, (Cursor.next_literal hreads' hscan').1, Lexeme.ofNumeral_congr hvalue]

/-- The mark of an exponent without digits belongs to no literal. -/
theorem token_of_literal_three :
    tokens ".3e1e+" = [⟨.number 3.0, 1⟩, ⟨.invalid, 5⟩, ⟨.plus, 6⟩, ⟨.finish, 7⟩] ∧
      StartsLiteral (".3e1e+".toList.drop (1 - 1)) ∧ NearestDouble 3 3.0 := by
  have htokens : tokens ".3e1e+" =
      [] ++ ⟨.number 3.0, 1⟩ :: [⟨.invalid, 5⟩, ⟨.plus, 6⟩, ⟨.finish, 7⟩] := by decide +kernel
  have hstart : StartsLiteral (".3e1e+".toList.drop (1 - 1)) := .point (by decide)
  obtain ⟨n, rest, hn, htext, hlongest, -, hnumber, -⟩ := token_of_literal htokens hstart
  have hscan : Numeral.scan? ".3e1e+".toList =
      some (⟨[], true, ['3'], some ⟨'e', none, ['1']⟩⟩, ['e', '+']) := by decide +kernel
  have hlongest := Numeral.scan?_eq_some hn hlongest
  rw [htext, Nat.sub_self, List.drop_zero, hscan] at hlongest
  cases hlongest
  have hvalue : Numeral.value ⟨[], true, ['3'], some ⟨'e', none, ['1']⟩⟩ = 3 := by
    have hdigits : digitsValue ['3'] = 3 := rfl
    have hexponent : ExponentPart.value ⟨'e', none, ['1']⟩ = 1 := rfl
    have hnone : digitsValue [] = 0 := rfl
    rw [Numeral.value]
    simp only [hdigits, hnone, Option.map_some, Option.getD_some, hexponent]
    norm_num
  have hrange : (3 : ℚ) < overflowBound := by
    have hbound : 3 + 2 ^ 970 < 2 ^ 1024 := by decide +kernel
    rw [overflowBound, lt_sub_iff_add_lt]
    exact_mod_cast hbound
  obtain ⟨x, hx, hnear⟩ := hnumber (hvalue.trans_lt hrange)
  cases hx
  exact ⟨htokens, hstart, hvalue ▸ hnear⟩

end Reckon
