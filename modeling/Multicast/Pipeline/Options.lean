import Multicast.Cost.Weights
import Multicast.Growth.Spread

/-!
# `Multicast.Pipeline.Options`: how to route

Which router builds the trees, and what it is told.
-/

set_option autoImplicit false

namespace Multicast

/-- The two routers. -/
inductive Algorithm where
  /-- Trees grown sink by sink towards what is nearest. -/
  | nearest
  /-- Trees of cheapest paths under what is already routed. -/
  | cheapest
deriving DecidableEq, Inhabited

/-- How to route. -/
structure Options (ν : Type) where
  algorithm : Algorithm
  radius : Nat
  weights : Weights ν
  /-- Routing is called off; nothing is routed. -/
  cancelled : Bool

/-- Grown trees, the usual radius, one per hop, not called off. -/
def Options.standard {ν : Type} [Quantity ν] : Options ν :=
  { algorithm := .nearest, radius := defaultRadius, weights := .standard, cancelled := false }

/-- Refuses to go on once routing is called off. -/
def Options.checkCancelled {ν : Type} (o : Options ν) : Except RouteError Unit :=
  if o.cancelled then .error .cancelled else .ok ()

end Multicast
