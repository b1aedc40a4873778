import Multicast.Machine.Fabric
import Multicast.RouteError
import Multicast.Search.Explore

/-!
# `Multicast.Repair.Detour`: finding the way back to a tree

A cut-off chip is reached again over a path that starts on some goal chip and
ends on it. The search goes backwards from the cut-off chip: it finds a
neighbour when the neighbour's link towards the chip at hand works. Chips
nearest to a guide are taken first, and the first goal taken ends the search.
-/

set_option autoImplicit false

namespace Multicast

/-- A path found: the chip it starts on and its hops. -/
structure Detour where
  start : Chip
  hops : List Hop
deriving DecidableEq

namespace Fabric

/-- The chips with a working link to a chip, each with that link. A neighbour is looked for in
every direction in turn, back along the link that would lead here. -/
def inward (f : Fabric) (c : Chip) : List (Direction × Chip) :=
  Direction.all.filterMap fun d =>
    match f.step c d.opposite with
    | some neighbour => if f.isLink neighbour d then some (d, neighbour) else none
    | none => none

/-- The hops of a backward route, followed forwards. -/
def forwardHops (steps : List (Search.Step Chip Direction)) : List Hop :=
  steps.reverse.map fun s => ⟨s.edge, s.source⟩

/-- A path over working links from a goal chip to `start`. -/
def detour (f : Fabric) (start guide : Chip) (isGoal : Chip → Bool) : Except RouteError Detour :=
  match Search.bestFirst (fun c => f.distance c guide) f.inward isGoal (f.size + 1) start with
  | some (goal, steps) => .ok ⟨goal, forwardHops steps⟩
  | none => .error (.noLivePath start guide)

end Fabric

end Multicast
