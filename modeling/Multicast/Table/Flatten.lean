import Multicast.Table.Entry
import Multicast.Tree.Walk

/-!
# `Multicast.Table.Flatten`: the entries of a tree

Every node of a tree that sends packets on gets an entry: its fixed ways out,
and the way out to each endpoint whose edge leaves it open. Below the root a
packet comes in over the link that leads back; at the root it comes from the
source.
-/

set_option autoImplicit false

namespace Multicast

/-- An entry and the chip it is for. -/
structure ChipEntry where
  chip : Chip
  entry : Entry
deriving DecidableEq

namespace Entry

/-- The entry with the way in of a packet that reached its node by `arrival`. A node that is
reached over no link is where the source, if known, puts packets in. -/
def withArrival (e : Entry) (arrival : Option Route) (source : Option Endpoint) : Entry :=
  match arrival, source with
  | some (.link d), _ => { e with incomingLink := some d.opposite }
  | some (.core _), _ => e
  | none, some (.core _ c) => { e with incomingCore := some c }
  | none, some (.device _ d) => { e with incomingLink := some d }
  | none, none => e

end Entry

namespace RouteTree

/-- The ways out to endpoints whose edges leave them open. -/
def impliedRoutes (t : RouteTree) (n : NodeId) : List Route :=
  (t.edges n).filterMap fun e =>
    match e.route, e.child with
    | none, .terminal endpoint => some endpoint.route
    | _, _ => none

/-- All ways out of a node, without a way in. -/
def outgoingEntry (t : RouteTree) (stop : Stop) : Entry :=
  (stop.outgoing ++ t.impliedRoutes stop.node).foldl Entry.addRoute Entry.empty

/-- The entries of a tree, nearest nodes first. -/
def entries (t : RouteTree) (source : Option Endpoint) : List ChipEntry :=
  t.stops.filterMap fun stop =>
    let entry := t.outgoingEntry stop
    if entry.isEmpty then none
    else some ⟨stop.chip, entry.withArrival stop.arrival source⟩

end RouteTree

end Multicast
