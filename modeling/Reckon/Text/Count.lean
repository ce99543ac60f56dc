import Reckon.Numeral

/-!
# Reading a count

`parseCount?` reads a natural number of at most sixty-four bits from decimal digits behind an
optional plus sign, and `parseInt32?` an integer of thirty-two bits behind either sign.
-/

namespace Reckon

/-- The number that a text of digits writes, if there is a digit and nothing else, and if it is
below `2 ^ 64`. -/
def parseDigits? (digits : List Char) : Option Nat :=
  if digits.isEmpty || !digits.all Char.isDigit then none
  else
    let n := digitsValue digits
    if n < twoPow 64 then some n else none

/-- The number that a text writes, with or without a plus sign. -/
def parseCount? (text : String) : Option Nat :=
  match text.toList with
  | '+' :: digits => parseDigits? digits
  | digits => parseDigits? digits

/-- The integer that a text writes, with or without a sign, if it is one of thirty-two bits. -/
def parseInt32? (text : List Char) : Option Int :=
  let (sign, digits) := ExponentPart.scanSign text
  match parseDigits? digits with
  | none => none
  | some n =>
    let value : Int := if sign = some '-' then -n else n
    if -twoPow 31 ≤ value ∧ value < twoPow 31 then some value else none

end Reckon
