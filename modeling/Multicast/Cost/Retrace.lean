import Multicast.Cost.Relax

/-!
# `Multicast.Cost.Retrace`: paths from recorded costs

No predecessors are kept while costs are found. A path is traced back from its
destination: the chip before is the first neighbour, in the order of links,
whose cost and the cost of its link add up to the cost of the chip at hand. A
path longer than the number of costs, a cost of zero away from the source, or a
chip no neighbour explains is an error.
-/

set_option autoImplicit false

namespace Multicast

/-- Paths from one source: each destination with the hops that lead to it. -/
structure CostPaths where
  source : Chip
  paths : List (Chip × List Hop)
deriving DecidableEq

namespace CostRouter

variable {ν : Type} [Quantity ν]

/-- The neighbour on the far side of a link back from a chip, if its link hither works and its
cost explains that of the chip. -/
def explains (r : CostRouter ν) (costs : Std.ExtTreeMap Chip ν) (c : Chip) (cost : ν)
    (d : Direction) : Option (Direction × Chip) :=
  match r.machine.step c d.opposite with
  | none => none
  | some neighbour =>
    if r.machine.follow? neighbour d == some c then
      match costs[neighbour]?, r.linkCost neighbour d c with
      | some before, some w =>
        if Quantity.lt (Quantity.abs (Quantity.sub (Quantity.sub cost w) before))
            Quantity.tolerance then
          some (d, neighbour)
        else none
      | _, _ => none
    else none

/-- The first neighbour that explains the cost of a chip, with its link. -/
def predecessor? (r : CostRouter ν) (costs : Std.ExtTreeMap Chip ν) (c : Chip) (cost : ν) :
    Option (Direction × Chip) :=
  Direction.all.findSome? (r.explains costs c cost)

/-- The chip before a chip on the way from the source, with the link between them. -/
def backStep (r : CostRouter ν) (costs : Std.ExtTreeMap Chip ν) (source c : Chip) :
    Except RouteError (Direction × Chip) :=
  match costs[c]? with
  | none => .error (.unexplainedCost c source)
  | some cost =>
    if Quantity.eq cost Quantity.zero then .error (.unexplainedCost c source)
    else
      match r.predecessor? costs c cost with
      | none => .error (.unexplainedCost c source)
      | some step => .ok step

/-- Traces a path back to the source, before the hops already found. -/
def retraceFrom (r : CostRouter ν) (costs : Std.ExtTreeMap Chip ν) (source : Chip) :
    Nat → Chip → List Hop → Except RouteError (List Hop)
  | bound, c, found =>
    if c = source then .ok found
    else
      match bound with
      | 0 => .error (.unexplainedCost c source)
      | bound + 1 =>
        match r.backStep costs source c with
        | .error e => .error e
        | .ok (d, previous) => r.retraceFrom costs source bound previous (⟨d, c⟩ :: found)

/-- The path to a destination. -/
def retrace (r : CostRouter ν) (costs : Std.ExtTreeMap Chip ν) (source destination : Chip) :
    Except RouteError (List Hop) :=
  r.retraceFrom costs source (costs.size + 1) destination []

/-- The paths to destinations, one after another. -/
def retraceAll (r : CostRouter ν) (costs : Std.ExtTreeMap Chip ν) (source : Chip) :
    List Chip → Except RouteError (List (Chip × List Hop))
  | [] => .ok []
  | c :: rest => do
    let hops ← r.retrace costs source c
    let paths ← r.retraceAll costs source rest
    return (c, hops) :: paths

/-- The cheapest paths from a working chip to destinations. -/
def paths (r : CostRouter ν) (source : Chip) (destinations : List Chip) :
    Except RouteError CostPaths :=
  if r.machine.isChip source then do
    let costs ← r.relax source destinations
    let paths ← r.retraceAll costs source destinations
    return ⟨source, paths⟩
  else .error (.deadRoot source)

end CostRouter

end Multicast
