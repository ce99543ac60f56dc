import Reckon.Number.Rounding

/-!
# What a double holds

Every finite double is a whole multiple of the smallest positive one, `2 ^ -1074`. `Binary64` is
the reading of a double in these units: a sign and a natural number. `Binary64.ofFloat` takes the
sixty-four bits apart, `Binary64.positive` puts a count of units together again, and
`Binary64.nearest` rounds any ratio to the units of the double nearest to it, so that all exact
arithmetic on doubles is arithmetic on natural numbers.
-/

namespace Reckon

/-- The datum that a double stands for; a finite one is `± units / 2 ^ 1074`. -/
inductive Binary64 where
  | nan
  | infinite (negative : Bool)
  | finite (negative : Bool) (units : Nat)
  deriving DecidableEq, Repr

namespace Binary64

/-- How many units make one. -/
def one : Nat := twoPow 1074

/-- The least count of units beyond the finite doubles, `2 ^ 1024` in units. -/
def overflow : Nat := twoPow 2098

/-- The datum of `x`, read from its sign bit, its eleven exponent bits and its fraction. -/
def ofFloat (x : Float) : Binary64 :=
  let bits := x.toBits.toNat
  let negative := decide (twoPow 63 ≤ bits)
  let exponent := bits / twoPow 52 % twoPow 11
  let fraction := bits % twoPow 52
  if exponent = 2047 then
    if fraction = 0 then .infinite negative else .nan
  else if exponent = 0 then .finite negative fraction
  else .finite negative ((twoPow 52 + fraction) * twoPow (exponent - 1))

/-- How many binary places the units of a double of about `units` are apart: the significand
keeps fifty-three bits, and the smallest doubles are one unit apart. -/
def spacing (units : Nat) : Nat :=
  Nat.log2 units - 52

/-- The units of the double nearest to `num / den`, ties going to the even significand. The
result is at least `overflow` exactly if that double is infinite. -/
def nearest (num den : Nat) : Nat :=
  let places := spacing (num * one / den)
  roundHalfEven (num * one) (den * twoPow places) * twoPow places

/-- The positive double (or zero) of `units`, for a count below `overflow` that a double holds.
The exponent field counts one for each place of spacing, and the leading bit of the significand
adds the one more that a normal double has. -/
def positive (units : Nat) : Float :=
  let places := spacing units
  Float.ofBits (UInt64.ofNat (places * twoPow 52 + units / twoPow places))

/-- The whole double nearest to `x`; of two equally near ones the one further from zero. -/
def nearestWhole (x : Float) : Float :=
  match ofFloat x with
  | .finite negative units =>
    let whole := positive (roundHalfUp units one * one)
    if negative then -whole else whole
  | _ => x

/-- A double as an integer of sixty-four bits: its whole part, or the nearest such integer. -/
def toInt64 (x : Float) : Int64 :=
  match ofFloat x with
  | .nan => 0
  | .infinite negative => if negative then Int64.minValue else Int64.maxValue
  | .finite negative units =>
    let whole : Int := (units / one : Nat)
    Int64.ofIntClamp (if negative then -whole else whole)

/-- The double nearest to `num / den`, unless that is infinite. -/
def ofRatio? (num den : Nat) : Option Float :=
  let units := nearest num den
  if units < overflow then some (positive units) else none

end Binary64

end Reckon
