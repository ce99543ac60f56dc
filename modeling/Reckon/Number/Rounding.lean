/-!
# Rounding a ratio to a whole number

A nonnegative number is given as a ratio `num / den` of natural numbers with `den` positive.
`roundHalfEven` and `roundHalfUp` pick a nearest whole number and differ only where two are
equally near. `tenLog` is the whole part of the decimal logarithm and `leadingExponent` carries
it over to ratios below one. `twoPow` and `tenPow` are the powers of the two bases at work here.
-/

namespace Reckon

/-- The power of two with the given exponent. -/
def twoPow (exponent : Nat) : Nat := Nat.pow 2 exponent

/-- The power of ten with the given exponent. -/
def tenPow (exponent : Nat) : Nat := Nat.pow 10 exponent

/-- The whole number nearest to `num / den`; of two equally near ones, the even one. -/
def roundHalfEven (num den : Nat) : Nat :=
  let quotient := num / den
  let remainder := num % den
  if 2 * remainder < den then quotient
  else if den < 2 * remainder then quotient + 1
  else if quotient % 2 = 0 then quotient
  else quotient + 1

/-- The whole number nearest to `num / den`; of two equally near ones, the larger one. -/
def roundHalfUp (num den : Nat) : Nat :=
  (2 * num + den) / (2 * den)

/-- The greatest `k` with `10 ^ k ≤ n`, for a positive `n`. -/
def tenLog (n : Nat) : Nat :=
  if n < 10 then 0 else tenLog (n / 10) + 1

/-- The greatest `e` with `10 ^ e ≤ num / den`, for positive `num` and `den`. Below one, the
least `k` with `den / num ≤ 10 ^ k` is the number of digits of `⌈den / num⌉ - 1`. -/
def leadingExponent (num den : Nat) : Int :=
  if den ≤ num then tenLog (num / den)
  else -(tenLog ((den + num - 1) / num - 1) + 1 : Int)

end Reckon
