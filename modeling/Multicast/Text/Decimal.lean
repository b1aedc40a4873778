import Multicast.Text.Digit

/-!
# `Multicast.Text.Decimal`: decimal numbers and their nearest doubles

A decimal is a sign, a number of digits and a power of ten. `toFloat` is the
nearest double; a decimal beyond the largest double becomes infinity.
-/

set_option autoImplicit false

namespace Multicast

/-- The number `digits · 10 ^ exponent`, or its negative. -/
structure Decimal where
  negative : Bool
  digits : Nat
  exponent : Int
deriving DecidableEq

namespace Decimal

/-- The number written with the given digits before and after the point and the given exponent. -/
def ofDigits (negative : Bool) (whole fraction : List Char) (exponent : Int) : Decimal :=
  { negative
    digits := Digit.number 10 (whole ++ fraction)
    exponent := exponent - fraction.length }

/-- The nearest double to the number without its sign. Exponents so large or small that the answer
is infinity or zero whatever the digits are settled first. -/
def magnitude (d : Decimal) : Float :=
  if d.digits = 0 then 0.0
  else if 400 < d.exponent then 1.0 / 0.0
  else if d.exponent < -400 - (d.digits.log2 : Int) then 0.0
  else if 0 ≤ d.exponent then Float.ofScientific d.digits false d.exponent.toNat
  else Float.ofScientific d.digits true (-d.exponent).toNat

/-- The nearest double. -/
def toFloat (d : Decimal) : Float :=
  if d.negative then -d.magnitude else d.magnitude

end Decimal

end Multicast
