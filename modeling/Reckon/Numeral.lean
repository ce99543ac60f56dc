import Reckon.Number.Decimal

/-!
# Numerals

A numeral is digits with an optional point, at least one digit on either side of it, and an
optional exponent: a mark `e` or `E`, an optional sign, and at least one digit. `Numeral.scan?`
splits the longest numeral off the front of a text, and `Numeral.decimal` is the number it
denotes. A mark that no digit follows does not belong to the numeral. `Numeral.scan?_append` says
that the numeral and the rest make up the text, and `Numeral.scan?_length` that the rest is
shorter.
-/

namespace Reckon

/-- The exponent of a numeral as it is written. -/
structure ExponentPart where
  mark : Char
  sign : Option Char
  digits : List Char
  deriving DecidableEq, Repr

/-- A numeral as it is written. -/
structure Numeral where
  whole : List Char
  point : Bool
  fraction : List Char
  exponent : Option ExponentPart
  deriving DecidableEq, Repr

/-- The number that decimal digits denote. -/
def digitsValue (digits : List Char) : Nat :=
  digits.foldl (fun n c => 10 * n + (c.toNat - '0'.toNat)) 0

namespace ExponentPart

/-- The exponent as text. -/
def text (e : ExponentPart) : List Char :=
  e.mark :: (e.sign.toList ++ e.digits)

/-- The exponent as a number. -/
def value (e : ExponentPart) : Int :=
  if e.sign = some '-' then -digitsValue e.digits else digitsValue e.digits

/-- Splits a sign off the front of a text. -/
def scanSign : List Char → Option Char × List Char
  | '+' :: rest => (some '+', rest)
  | '-' :: rest => (some '-', rest)
  | rest => (none, rest)

/-- Splits an exponent off the front of a text, if a whole one stands there. -/
def scan? : List Char → Option (ExponentPart × List Char)
  | [] => none
  | mark :: rest =>
    if mark = 'e' ∨ mark = 'E' then
      let (sign, rest) := scanSign rest
      let digits := rest.takeWhile Char.isDigit
      if digits.isEmpty then none else some (⟨mark, sign, digits⟩, rest.dropWhile Char.isDigit)
    else none

end ExponentPart

namespace Numeral

/-- The numeral as text. -/
def text (n : Numeral) : List Char :=
  n.whole ++ (if n.point then ['.'] else []) ++ n.fraction ++
    (n.exponent.map ExponentPart.text).getD []

/-- The number that the numeral denotes: its digits as one whole number, and an exponent that
counts the places behind the point. -/
def decimal (n : Numeral) : Decimal :=
  ⟨digitsValue (n.whole ++ n.fraction),
    (n.exponent.map ExponentPart.value).getD 0 - n.fraction.length⟩

/-- Whether a digit stands on either side of the point. -/
def hasDigit (n : Numeral) : Bool :=
  !(n.whole.isEmpty && n.fraction.isEmpty)

/-- Splits digits, a point and the digits behind it off the front of a text, as far as they stand
there. -/
def scanMantissa (text : List Char) : Numeral × List Char :=
  let whole := text.takeWhile Char.isDigit
  match text.dropWhile Char.isDigit with
  | '.' :: rest =>
    (⟨whole, true, rest.takeWhile Char.isDigit, none⟩, rest.dropWhile Char.isDigit)
  | rest => (⟨whole, false, [], none⟩, rest)

/-- Splits the longest numeral off the front of a text, if one stands there. -/
def scan? (text : List Char) : Option (Numeral × List Char) :=
  let (n, rest) := scanMantissa text
  if n.hasDigit then
    match ExponentPart.scan? rest with
    | some (exponent, rest) => some ({ n with exponent := some exponent }, rest)
    | none => some (n, rest)
  else none

end Numeral

/-! ## What a scan leaves

A scan takes its numeral off the front of the text, so what it leaves is shorter.
-/

/-- The sign and what is left of the text are the text. -/
theorem ExponentPart.scanSign_append (text : List Char) :
    (scanSign text).1.toList ++ (scanSign text).2 = text := by
  unfold scanSign
  split <;> rfl

/-- What is read as an exponent and what is left of the text are the text. -/
theorem ExponentPart.scan?_append {text rest : List Char} {e : ExponentPart}
    (h : scan? text = some (e, rest)) : e.text ++ rest = text := by
  cases text with
  | nil => simp [scan?] at h
  | cons mark behind =>
    simp only [scan?] at h
    split at h
    · split at h
      · cases h
      · cases h
        simp [ExponentPart.text, List.takeWhile_append_dropWhile, scanSign_append]
    · cases h

/-- What is read as a mantissa and what is left of the text are the text. -/
theorem Numeral.scanMantissa_append (text : List Char) :
    (scanMantissa text).1.text ++ (scanMantissa text).2 = text := by
  have hsplit := List.takeWhile_append_dropWhile (p := Char.isDigit) (l := text)
  unfold scanMantissa
  dsimp only
  split
  · next rest hrest =>
    rw [hrest] at hsplit
    simp [Numeral.text, List.takeWhile_append_dropWhile, hsplit]
  · simp [Numeral.text]

/-- What is read as a literal and what is left of the text are the text. -/
theorem Numeral.scan?_append {text rest : List Char} {n : Numeral}
    (h : scan? text = some (n, rest)) : n.text ++ rest = text := by
  have hmantissa := scanMantissa_append text
  have hbare : (scanMantissa text).1.exponent = none := by
    unfold scanMantissa
    dsimp only
    split <;> rfl
  simp only [scan?] at h
  split at h
  · split at h
    · next hexponent =>
      cases h
      have := ExponentPart.scan?_append hexponent
      refine Eq.trans ?_ hmantissa
      simp [Numeral.text, hbare, this]
    · cases h
      exact hmantissa
  · cases h

/-- A literal that is read has at least one digit. -/
theorem Numeral.text_ne_nil {text rest : List Char} {n : Numeral}
    (h : scan? text = some (n, rest)) : n.text ≠ [] := by
  have hdigit : n.hasDigit = true := by
    simp only [scan?] at h
    split at h
    · next hdigit =>
      split at h <;> (cases h; exact hdigit)
    · cases h
  intro htext
  simp only [Numeral.text, List.append_eq_nil_iff] at htext
  simp [hasDigit, htext.1.1.1, htext.1.2] at hdigit

/-- A literal that is read takes something off the text. -/
theorem Numeral.scan?_length {text rest : List Char} {n : Numeral}
    (h : scan? text = some (n, rest)) : rest.length < text.length := by
  have hlength := congrArg List.length (scan?_append h)
  have hpos := List.length_pos_iff.2 (text_ne_nil h)
  simp only [List.length_append] at hlength
  omega

end Reckon
