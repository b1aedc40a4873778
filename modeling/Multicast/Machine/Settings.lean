import Multicast.Geometry.Chip

/-!
# `Multicast.Machine.Settings`: a machine as it is written down

The sides of a machine, what of it is dead and what it can hold, before anything
has been checked. Bandwidth is a number of any kind `ν`.
-/

set_option autoImplicit false

namespace Multicast

/-- A dead link as written: its chip and its link number. -/
structure DownLink where
  chip : Chip
  link : Nat
deriving DecidableEq, Inhabited

/-- The written description of a machine. -/
structure MachineSettings (ν : Type) where
  width : Nat
  height : Nat
  wraps : Bool
  downChips : List Chip
  downLinks : List DownLink
  routerEntries : Nat
  linkBandwidth : ν

end Multicast
