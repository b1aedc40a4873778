import Multicast.Collection.Heap
import Multicast.Cost.Router

/-!
# `Multicast.Cost.Relax`: the cheapest cost of every chip

Chips are settled cheapest first, beginning with the source, until every
destination is settled. Settling a chip offers each unsettled neighbour its own
cost plus that of the link, and a neighbour keeps the smallest offer. Every
smaller offer goes on the heap; an offer to a chip settled meanwhile is passed
over. Equal costs are taken in the order of chips.
-/

set_option autoImplicit false

namespace Multicast.CostRouter

variable {ν : Type} [Quantity ν]

/-- A chip with the cost offered to it. -/
structure Offer (ν : Type) where
  chip : Chip
  cost : ν

/-- Cheaper offers go earlier, and of equal ones the earlier chip. -/
def Offer.goesBefore (a b : Offer ν) : Bool :=
  Quantity.lt a.cost b.cost || (!Quantity.lt b.cost a.cost && (compare a.chip b.chip).isLT)

/-- An offer that goes no earlier than another. -/
def Offer.atMost (a b : Offer ν) : Bool :=
  !a.goesBefore b

/-- The state of a relaxation. -/
structure Relaxation (ν : Type) where
  /-- The smallest offer to each chip so far. -/
  offers : Std.ExtTreeMap Chip ν
  /-- The settled chips with their costs. -/
  settled : Std.ExtTreeMap Chip ν
  /-- The destinations not yet settled. -/
  remaining : Std.ExtTreeSet Chip
  queue : Heap (Offer ν)

/-- Whether an offer is smaller than the smallest known one, if one is known. -/
def isBetter (cost : ν) : Option ν → Bool
  | none => true
  | some known => Quantity.lt cost known

/-- Offers a neighbour of a chip being settled its cost over one link. -/
def offer (r : CostRouter ν) (source : Offer ν) (s : Relaxation ν) (hop : Hop) : Relaxation ν :=
  if s.settled.contains hop.chip then s
  else
    match r.linkCost source.chip hop.link hop.chip with
    | none => s
    | some w =>
      let cost := Quantity.add source.cost w
      if isBetter cost s.offers[hop.chip]? then
        { s with
          offers := s.offers.insert hop.chip cost
          queue := s.queue.push Offer.atMost ⟨hop.chip, cost⟩ }
      else s

/-- Settles a chip and makes offers to its neighbours. -/
def settle (r : CostRouter ν) (s : Relaxation ν) (o : Offer ν) : Relaxation ν :=
  (r.machine.liveLinks o.chip).foldl (r.offer o)
    { s with settled := s.settled.insert o.chip o.cost, remaining := s.remaining.erase o.chip }

/-- The costs of the settled chips, unless a destination remains. -/
def outcome (source : Chip) (s : Relaxation ν) : Except RouteError (Std.ExtTreeMap Chip ν) :=
  match s.remaining.toList with
  | [] => .ok s.settled
  | smallest :: _ => .error (.noLivePath source smallest)

/-- Settles chips until no destination remains. `bound` limits the offers taken from the heap. -/
def relaxFrom (r : CostRouter ν) (source : Chip) :
    Nat → Relaxation ν → Except RouteError (Std.ExtTreeMap Chip ν)
  | 0, s => outcome source s
  | bound + 1, ⟨offers, settled, remaining, queue⟩ =>
    if remaining.isEmpty then .ok settled
    else
      match queue.pop? Offer.atMost with
      | none => outcome source ⟨offers, settled, remaining, queue⟩
      | some (o, queue) =>
        if settled.contains o.chip then
          r.relaxFrom source bound ⟨offers, settled, remaining, queue⟩
        else r.relaxFrom source bound (r.settle ⟨offers, settled, remaining, queue⟩ o)

/-- The costs of the chips settled on the way to all destinations. Every link makes at most one
offer, so there are never more offers than links and the first one. -/
def relax (r : CostRouter ν) (source : Chip) (destinations : List Chip) :
    Except RouteError (Std.ExtTreeMap Chip ν) :=
  r.relaxFrom source (6 * r.machine.size + 2)
    { offers := (∅ : Std.ExtTreeMap Chip ν).insert source Quantity.zero
      settled := ∅
      remaining := Std.ExtTreeSet.ofList destinations
      queue := Heap.empty.push Offer.atMost ⟨source, Quantity.zero⟩ }

end Multicast.CostRouter
