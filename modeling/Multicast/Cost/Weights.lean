import Multicast.Cost.Quantity
import Multicast.RouteError

/-!
# `Multicast.Cost.Weights`: the coefficients of link costs

Crossing a link costs `k`, plus `l` times the pressure on the table of the chip
behind it, plus `m` times the pressure on the link. Pressure is the inverse of
what is free less the inverse of the most any chip or link has. Costs then grow
along every path as long as `k` is positive and the rest is not negative.
-/

set_option autoImplicit false

namespace Multicast

/-- The coefficients of link costs, and the bandwidth a committed route takes from each link. -/
structure Weights (ν : Type) where
  k : ν
  l : ν
  m : ν
  perRoute : ν
deriving DecidableEq

namespace Weights

variable {ν : Type} [Quantity ν]

/-- One per hop, no pressure. -/
def standard : Weights ν :=
  { k := Quantity.ofNat 1, l := Quantity.zero, m := Quantity.zero, perRoute := Quantity.ofNat 1 }

/-- What is wrong with coefficients, if anything is. -/
def fault? (w : Weights ν) : Option WeightFault :=
  if !Quantity.lt Quantity.zero w.k then some .hopCost
  else if !(Quantity.le Quantity.zero w.l && Quantity.le Quantity.zero w.m &&
      Quantity.le Quantity.zero w.perRoute) then some .coefficient
  else none

end Weights

end Multicast
