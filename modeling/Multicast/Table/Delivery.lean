import Multicast.Machine.Fabric
import Multicast.Search.Explore
import Multicast.Table.Tables

/-!
# `Multicast.Table.Delivery`: following the tables

A packet is followed from chip to chip through the entries of its partition. A
link leads on when it works and the chip behind it has an entry; otherwise a
device hangs on it. `Tables.reached` collects the endpoints met on the way.
-/

set_option autoImplicit false

namespace Multicast.Tables

/-- The chip a link of an entry leads on to, if it does. -/
def onward? (f : Fabric) (t : Tables) (p : Partition) (c : Chip) (d : Direction) : Option Chip :=
  (f.follow? c d).filter fun next => (t.get? ⟨next, p⟩).isSome

/-- The chips a packet is sent to from a chip, each over its link. -/
def onward (f : Fabric) (t : Tables) (p : Partition) (c : Chip) : List (Direction × Chip) :=
  match t.get? ⟨c, p⟩ with
  | none => []
  | some e => e.links.filterMap fun d => (t.onward? f p c d).map fun next => (d, next)

/-- The chips a packet passes, nearest to the source first. -/
def visited (f : Fabric) (t : Tables) (p : Partition) (source : Chip) : List Chip :=
  (Search.breadthFirst (t.onward f p) (t.entryCount + 1) source).map (·.node)

/-- The endpoints a chip hands packets to: its cores, and the devices on links that lead
nowhere. -/
def deliveries (f : Fabric) (t : Tables) (p : Partition) (c : Chip) : List Endpoint :=
  match t.get? ⟨c, p⟩ with
  | none => []
  | some e =>
    e.cores.map (Endpoint.core c) ++
      (e.links.filter fun d => (t.onward? f p c d).isNone).map (Endpoint.device c)

/-- The endpoints reached from a source, in order. -/
def reached (f : Fabric) (t : Tables) (p : Partition) (source : Endpoint) : List Endpoint :=
  (Std.ExtTreeSet.ofList ((t.visited f p source.chip).flatMap (t.deliveries f p))).toList

end Multicast.Tables
