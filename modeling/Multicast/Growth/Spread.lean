import Multicast.Growth.Attach
import Multicast.Traffic.Net

/-!
# `Multicast.Growth.Spread`: the tree of a net, grown sink by sink

The sinks are connected in the order of their distance from the source, each to
the tree chip nearest to it. Branches are short and share what is already
there. Dead links are ignored; `Multicast.Repair` mends the tree afterwards.
-/

set_option autoImplicit false

namespace Multicast

/-- The radius within which an anchor is looked for unless another is given. -/
def defaultRadius : Nat := 20

namespace Fabric

/-- The first chip of a list that lies off the grid. -/
def firstOff? (f : Fabric) (chips : List Chip) : Option Chip :=
  chips.find? fun c => !f.contains c

/-- The tree from a source to the given chips. Chips off the grid are refused first, then a dead
source. -/
def spread (f : Fabric) (source : Chip) (sinks : List Chip) (radius : Nat) :
    Except RouteError Growth :=
  match f.firstOff? (source :: sinks) with
  | some c => .error (.offMachine c)
  | none =>
    if f.isChip source then
      (Growth.single source).attachAll f.toGrid radius
        (Ordered.sortStable (f.distance source) sinks)
    else .error (.deadRoot source)

/-- The tree of a net, with a terminal for every sink. -/
def spreadNet (f : Fabric) (net : Net) (radius : Nat) : Except RouteError Growth := do
  let grown ← f.spread net.source.chip net.sinkChips radius
  grown.addTerminals net.source.chip net.sinks

end Fabric

end Multicast
