import Reckon.Number.Binary64

/-!
# Decimal numbers

A `Decimal` is `coefficient * 10 ^ exponent`. `Decimal.ofRatio` rounds a ratio to a number of
significant digits, `Decimal.shortest` finds the fewest digits that name a double, and
`Decimal.double?` goes the other way, from a decimal number of any size to the nearest double.
-/

namespace Reckon

/-- The nonnegative number `coefficient * 10 ^ exponent`. -/
structure Decimal where
  coefficient : Nat
  exponent : Int
  deriving DecidableEq, Repr

namespace Decimal

/-- The numerator of the number, written as a ratio with denominator `den`. -/
def num (d : Decimal) : Nat :=
  d.coefficient * tenPow d.exponent.toNat

/-- The power of ten that a negative exponent puts below the line. -/
def den (d : Decimal) : Nat :=
  tenPow (-d.exponent).toNat

/-- The double nearest to the number, unless that is infinite. A number of at least `10 ^ 309`
is beyond the finite doubles and one below `10 ^ -325` rounds to zero, so an exponent of any size
is answered without writing its power of ten out. -/
def double? (d : Decimal) : Option Float :=
  if d.coefficient = 0 then some (Binary64.positive 0)
  else
    let lead := tenLog d.coefficient + d.exponent
    if 309 ≤ lead then none
    else if lead < -325 then some (Binary64.positive 0)
    else Binary64.ofRatio? d.num d.den

/-- The positive ratio `num / den` with `digits` significant digits, ties going to the even
coefficient. The coefficient has exactly `digits` digits, also when rounding carries. -/
def ofRatio (digits num den : Nat) : Decimal :=
  let last := leadingExponent num den - (digits - 1 : Nat)
  let coefficient :=
    roundHalfEven (num * tenPow (-last).toNat) (den * tenPow last.toNat)
  if coefficient = tenPow digits then ⟨tenPow (digits - 1), last + 1⟩
  else ⟨coefficient, last⟩

/-- Of the two decimal numbers of `digits` digits next to `units` of a double, the nearer one
that reads back as that double; the larger one where both are equally near. -/
def reading? (units digits : Nat) : Option Decimal :=
  let last := leadingExponent units Binary64.one - (digits - 1 : Nat)
  let num := units * tenPow (-last).toNat
  let den := Binary64.one * tenPow last.toNat
  let below : Decimal := ⟨num / den, last⟩
  let above : Decimal := ⟨num / den + 1, last⟩
  let readsBack (d : Decimal) : Bool := Binary64.nearest d.num d.den == units
  let candidates := if 2 * (num % den) < den then [below, above] else [above, below]
  candidates.find? readsBack

/-- The decimal number with the fewest digits that reads back as the double of `units`, for a
positive count; seventeen digits always do. -/
def shortest (units : Nat) : Decimal :=
  ((List.range' 1 17).findSome? (reading? units)).getD (ofRatio 17 units Binary64.one)

end Decimal

end Reckon
