import Multicast.Machine.Fabric
import Multicast.RouteError

/-!
# `Multicast.Growth.StraightRuns`: paths in straight runs, longest first

The path from one chip to another follows the straight runs of the shortest
vector between them. Dead chips and links are not looked at.
-/

set_option autoImplicit false

namespace Multicast.Grid

/-- Follows one link a number of times. Stepping off a grid is an error about the chip stepped
from. -/
def straight (g : Grid) (d : Direction) : Nat → Chip → Except RouteError (List Hop)
  | 0, _ => .ok []
  | n + 1, c =>
    match g.step c d with
    | none => .error (.offMachine c)
    | some next => do
      let rest ← g.straight d n next
      return ⟨d, next⟩ :: rest

/-- The chip at the end of a path that starts on a given chip. -/
def endOf (start : Chip) (hops : List Hop) : Chip :=
  match hops.getLast? with
  | some hop => hop.chip
  | none => start

/-- Follows straight runs one after another. -/
def follow (g : Grid) : List (Direction × Nat) → Chip → Except RouteError (List Hop)
  | [], _ => .ok []
  | (d, n) :: runs, c => do
    let run ← g.straight d n c
    let rest ← g.follow runs (endOf c run)
    return run ++ rest

/-- The path between two chips in straight runs, longest first. -/
def straightRuns (g : Grid) (source target : Chip) : Except RouteError (List Hop) :=
  g.follow (g.vector source target).runs source

end Multicast.Grid
