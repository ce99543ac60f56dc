import Reckon.Number.Decimal

/-!
# Writing a decimal number

`Layout` holds the choices that decimal forms leave open: which numbers are written
positionally and how an exponent looks. `Layout.text` writes a decimal number under these choices,
without zeros behind its last significant digit.
-/

namespace Reckon

/-- The choices of a decimal form. -/
structure Layout where
  /-- The least exponent of the leading digit that is still written positionally. -/
  positionalFrom : Int
  /-- The least exponent of the leading digit that is written positionally no more. -/
  positionalBelow : Int
  /-- Whether a whole number written positionally ends in a point and a zero. -/
  pointZero : Bool
  /-- Whether a nonnegative exponent has a plus sign. -/
  plusSign : Bool
  /-- The least number of digits of an exponent. -/
  exponentDigits : Nat
  deriving DecidableEq, Repr

/-- The text without its last characters, as far as they are `c`. -/
def dropEnd (c : Char) (text : List Char) : List Char :=
  (text.reverse.dropWhile (· = c)).reverse

/-- The digits without the zeros at their end. -/
def dropEndZeros (digits : List Char) : List Char :=
  dropEnd '0' digits

/-- The decimal digits of `n`, with zeros in front up to a least number of digits. -/
def paddedDigits (width n : Nat) : List Char :=
  let digits := Nat.toDigits 10 n
  List.replicate (width - digits.length) '0' ++ digits

namespace Layout

/-- A number with the given significant digits, the first of which counts `10 ^ lead`, written
with its point in place. -/
def positional (layout : Layout) (digits : List Char) (lead : Int) : List Char :=
  let places := (lead + 1).toNat
  let whole :=
    if 0 ≤ lead then digits.take places ++ List.replicate (places - digits.length) '0' else ['0']
  let fraction :=
    if 0 ≤ lead then digits.drop places else List.replicate (-lead - 1).toNat '0' ++ digits
  if fraction.isEmpty then
    if layout.pointZero then whole ++ ['.', '0'] else whole
  else whole ++ '.' :: fraction

/-- A number with the given significant digits, the first of which counts `10 ^ lead`, written
as one digit, the others behind a point, and the exponent. -/
def scientific (layout : Layout) (digits : List Char) (lead : Int) : List Char :=
  let fraction := digits.drop 1
  let sign := if lead < 0 then ['-'] else if layout.plusSign then ['+'] else []
  digits.take 1 ++ (if fraction.isEmpty then [] else '.' :: fraction) ++
    'e' :: sign ++ paddedDigits layout.exponentDigits lead.natAbs

/-- The text of a positive decimal number. -/
def text (layout : Layout) (d : Decimal) : List Char :=
  let digits := Nat.toDigits 10 d.coefficient
  let lead := d.exponent + (digits.length - 1 : Nat)
  let significant := dropEndZeros digits
  if layout.positionalFrom ≤ lead ∧ lead < layout.positionalBelow then
    layout.positional significant lead
  else layout.scientific significant lead

end Layout

end Reckon
