import Multicast.Cost.Weights
import Multicast.Machine.Basic
import Multicast.Tree.Walk

/-!
# `Multicast.Cost.Router`: link costs under what is already routed

A cost router remembers how many committed trees use each chip and how much
bandwidth they take from each link. The cost of a link grows with both; a link
without bandwidth left, or towards a chip without a free entry, cannot be
crossed. A coefficient of zero switches its part off, limit included.
-/

set_option autoImplicit false

namespace Multicast

/-- A machine, the coefficients of its link costs, and what committed trees use of it. -/
structure CostRouter (ν : Type) where
  machine : Machine ν
  weights : Weights ν
  usedEntries : Std.ExtTreeMap Chip Nat
  usedBandwidth : Std.ExtTreeMap Port ν
  /-- The most entries any working chip can hold. -/
  maxEntries : ν
  /-- The most bandwidth any link of a working chip has. -/
  maxBandwidth : ν

namespace CostRouter

variable {ν : Type} [Quantity ν]

/-- The most entries any working chip can hold. -/
def mostEntries (m : Machine ν) : Nat :=
  m.foldChips (fun most c => max most (m.entries c)) 0

/-- The most bandwidth any link of a working chip has. -/
def mostBandwidth (m : Machine ν) : ν :=
  m.foldChips (fun most c =>
    Direction.all.foldl (fun most d => Quantity.larger most (m.bandwidth c d)) most) Quantity.zero

/-- A router with nothing committed. -/
def create (m : Machine ν) (w : Weights ν) : Except RouteError (CostRouter ν) :=
  match w.fault? with
  | some fault => .error (.invalidWeights fault)
  | none => .ok {
      machine := m
      weights := w
      usedEntries := ∅
      usedBandwidth := ∅
      maxEntries := Quantity.ofNat (mostEntries m)
      maxBandwidth := mostBandwidth m }

/-- The pressure on a resource: the inverse of what is free less the inverse of the most. -/
def pressure (free most : ν) : ν :=
  Quantity.sub (Quantity.inverse free) (Quantity.inverse most)

/-- The part of a cost due to the table of the chip behind the link; `none` if it is full. -/
def addTablePressure (r : CostRouter ν) (target : Chip) (cost : ν) : Option ν :=
  if Quantity.eq r.weights.l Quantity.zero then some cost
  else
    let used := r.usedEntries.getD target 0
    let capacity := r.machine.entries target
    if used < capacity then
      some (Quantity.add cost (Quantity.mul r.weights.l
        (pressure (Quantity.ofNat (capacity - used)) r.maxEntries)))
    else none

/-- The bandwidth committed trees use of a link. -/
def bandwidthUsed (r : CostRouter ν) (c : Chip) (d : Direction) : ν :=
  r.usedBandwidth.getD ⟨c, d⟩ Quantity.zero

/-- The bandwidth of a link that committed trees do not use. -/
def freeBandwidth (r : CostRouter ν) (source : Chip) (d : Direction) : ν :=
  Quantity.sub (r.machine.bandwidth source d) (r.bandwidthUsed source d)

/-- The part of a cost due to the link; `none` if it has no bandwidth left. -/
def addLinkPressure (r : CostRouter ν) (source : Chip) (d : Direction) (cost : ν) : Option ν :=
  if Quantity.eq r.weights.m Quantity.zero then some cost
  else
    let free := r.freeBandwidth source d
    if Quantity.le free Quantity.zero then none
    else some (Quantity.add cost (Quantity.mul r.weights.m (pressure free r.maxBandwidth)))

/-- The cost of crossing a link to the chip behind it; `none` if there is no room. -/
def linkCost (r : CostRouter ν) (source : Chip) (d : Direction) (target : Chip) : Option ν :=
  (r.addTablePressure target r.weights.k).bind (r.addLinkPressure source d)

/-- Counts one more tree on a chip. -/
def useChip (r : CostRouter ν) (c : Chip) : CostRouter ν :=
  { r with usedEntries := r.usedEntries.insert c (r.usedEntries.getD c 0 + 1) }

/-- Takes the bandwidth of one route from a link. -/
def useLink (r : CostRouter ν) (c : Chip) (d : Direction) : CostRouter ν :=
  let used := Quantity.add (r.bandwidthUsed c d) r.weights.perRoute
  { r with usedBandwidth := r.usedBandwidth.insert ⟨c, d⟩ used }

/-- Counts what one node of a tree uses: an entry, and bandwidth of each link to another node. -/
def useNode (t : RouteTree) (r : CostRouter ν) (n : NodeId) : CostRouter ν :=
  match t.chip? n with
  | none => r
  | some c =>
    (t.edges n).foldl (fun r e =>
      match e.route, e.child with
      | some (.link d), .node _ => r.useLink c d
      | _, _ => r) (r.useChip c)

/-- Counts what a tree uses. -/
def commit (r : CostRouter ν) (t : RouteTree) : CostRouter ν :=
  t.reached.foldl (useNode t) r

end CostRouter

end Multicast
