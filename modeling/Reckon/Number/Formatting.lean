import Reckon.Number.Decimal
import Reckon.Number.Layout

/-!
# Writing a double with a count of decimals

`fixedText` and `exponentText` write the double of a count of units with as many decimals as are
asked for, with and without an exponent. Either rounds the double itself, and correctly: of two
texts equally near the one with the even last digit is written.
-/

namespace Reckon

/-- A minus sign in front of the text of a negative number. -/
def withSign (negative : Bool) (text : List Char) : List Char :=
  if negative then '-' :: text else text

/-- The double of `units` with so many digits behind the point. -/
def fixedText (decimals units : Nat) : List Char :=
  let rounded := roundHalfEven (units * tenPow decimals) Binary64.one
  let digits := paddedDigits (decimals + 1) rounded
  let places := digits.length - decimals
  digits.take places ++ if decimals = 0 then [] else '.' :: digits.drop places

/-- The double of `units` with one digit in front of the point, so many digits behind it, and an
exponent. -/
def exponentText (decimals units : Nat) : List Char :=
  let d := Decimal.ofRatio (decimals + 1) units Binary64.one
  let digits := paddedDigits (decimals + 1) d.coefficient
  let lead := if d.coefficient = 0 then 0 else d.exponent + decimals
  digits.take 1 ++ (if decimals = 0 then [] else '.' :: digits.drop 1) ++
    'e' :: withSign (decide (lead < 0)) (Nat.toDigits 10 lead.natAbs)

end Reckon
