import Reckon.Number.Formatting
import Reckon.Text.Count

/-!
# The text of a number

`renderNumber` is the text of a result: a value that is a whole number, up to a small tolerance,
is written as that whole number, and any other value with fifteen significant digits.
`significantText` finds the place of the first digit by writing the value with an exponent; unless
that text is used, it writes the value once more, with as many decimals as that place leaves.
`renderExactly` is the text of a number in a log line, with the fewest digits that name it.
-/

namespace Reckon

/-- The distance from a whole number below which a result is written as that whole number. -/
def wholeTolerance : Float := 1e-12

/-- The magnitude from which a whole number is written with significant digits as any other. -/
def wholeLimit : Float := 9223372036854775808

/-- The number of significant digits of a result that is not whole. -/
def significantDigits : Nat := 15

/-- Logged numbers are positional from `0.0001` up to `10 ^ 16`, where a whole number keeps its
point; an exponent is bare. -/
def exactLayout : Layout := ⟨-4, 16, true, false, 1⟩

/-- The texts in front of the first `c` and behind it, if there is one. -/
def splitOnce? (c : Char) (text : List Char) : Option (List Char × List Char) :=
  match text.dropWhile (· != c) with
  | [] => none
  | _ :: behind => some (text.takeWhile (· != c), behind)

/-- The text without zeros at the end of its decimals, and without a bare point. -/
def trimFraction (text : List Char) : List Char :=
  if '.' ∈ text then dropEnd '.' (dropEnd '0' text) else text

/-- The text of a finite result with so many significant digits. -/
def significantText (digits : Nat) (negative : Bool) (units : Nat) : List Char :=
  let scientific := withSign negative (exponentText (digits - 1) units)
  match splitOnce? 'e' scientific with
  | none => scientific
  | some (mantissa, behind) =>
    let lead := (parseInt32? behind).getD 0
    if lead < -4 ∨ digits ≤ lead then
      let sign := if lead < 0 then '-' else '+'
      trimFraction mantissa ++ 'e' :: sign :: paddedDigits 2 lead.natAbs
    else trimFraction (withSign negative (fixedText (digits - 1 - lead).toNat units))

/-- The text of a result. -/
def renderNumber (x : Float) : String :=
  match Binary64.ofFloat x with
  | .nan => "nan"
  | .infinite negative => String.ofList (withSign negative ['i', 'n', 'f'])
  | .finite negative units =>
    let whole := Binary64.nearestWhole x
    if (x - whole).abs < wholeTolerance ∧ whole.abs < wholeLimit then
      toString (Binary64.toInt64 whole)
    else String.ofList (significantText significantDigits negative units)

/-- The text of a number in a log line. -/
def renderExactly (x : Float) : String :=
  match Binary64.ofFloat x with
  | .nan => "NaN"
  | .infinite negative => String.ofList (withSign negative ['i', 'n', 'f'])
  | .finite negative units =>
    let text := if units = 0 then ['0', '.', '0'] else exactLayout.text (Decimal.shortest units)
    String.ofList (withSign negative text)

end Reckon
