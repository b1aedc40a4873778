import Multicast.Collection.Ordered
import Multicast.Search.Explore
import Multicast.Tree.ChipIndex

/-!
# `Multicast.Tree.Walk`: walking a routing tree

The walks go from the root breadth-first and see each node once, whatever the
edges are. A place the row does not hold is walked to as a node without edges.
Every walk takes at most one node more than the row holds: enough for all nodes
when no edge leads out of the row, and enough to meet a place that the row does
not hold when one does.
-/

set_option autoImplicit false

namespace Multicast

namespace RouteTree

/-- The nodes the edges of a node lead to, each with its way out. -/
def childNodes (t : RouteTree) (n : NodeId) : List (Option Route × NodeId) :=
  (t.edges n).filterMap fun e =>
    match e.child with
    | .node next => some (e.route, next)
    | .terminal _ => none

/-- The nodes reached from the root, nearest first. -/
def arrivals (t : RouteTree) : List (Search.Arrival NodeId (Option Route)) :=
  Search.breadthFirst t.childNodes (t.size + 1) t.root

/-- The nodes reached from the root, nearest first. -/
def reached (t : RouteTree) : List NodeId :=
  t.arrivals.map (·.node)

/-- A node of a walk with the way out its parent reaches it by; none for the root. -/
def arrivalRoute (a : Search.Arrival NodeId (Option Route)) : Option Route :=
  match a.via with
  | some (_, route) => route
  | none => none

/-- The nodes reached from the root, each with the way out it is reached by. -/
def breadthFirst (t : RouteTree) : List (Option Route × NodeId) :=
  t.arrivals.map fun a => (arrivalRoute a, a.node)

/-- A node and everything below it, branch by branch, the last branch first. -/
def subtree (t : RouteTree) (n : NodeId) : List NodeId :=
  (Search.depthFirst t.childNodes (t.size + 1) n).map (·.node)

/-- One stop of a walk: a node, how it was reached, and every fixed way out of it. -/
structure Stop where
  arrival : Option Route
  node : NodeId
  chip : Chip
  outgoing : List Route
deriving DecidableEq

/-- The fixed ways out of a node, in order and each once. -/
def outgoing (t : RouteTree) (n : NodeId) : List Route :=
  Ordered.ofList Route.before ((t.edges n).filterMap (·.route))

/-- The walk, nearest nodes first, with the fixed ways out of each. -/
def stops (t : RouteTree) : List Stop :=
  t.breadthFirst.filterMap fun (arrival, node) =>
    (t.chip? node).map fun chip => ⟨arrival, node, chip, t.outgoing node⟩

/-- The number of nodes reached from the root. -/
def reachedCount (t : RouteTree) : Nat :=
  t.reached.length

/-- The chips of the nodes reached from the root, nearest first. -/
def reachedChips (t : RouteTree) : List Chip :=
  t.reached.filterMap t.chip?

/-- An endpoint a tree delivers to: the chip it hangs off, the way out, and itself. -/
structure Terminal where
  chip : Chip
  route : Option Route
  endpoint : Endpoint
deriving DecidableEq

/-- The endpoints that hang off a node. -/
def terminalsAt (t : RouteTree) (n : NodeId) : List Terminal :=
  match t.chip? n with
  | none => []
  | some chip => (t.edges n).filterMap fun e =>
    match e.child with
    | .terminal endpoint => some ⟨chip, e.route, endpoint⟩
    | .node _ => none

/-- Every endpoint that hangs off a node reached from the root. -/
def terminals (t : RouteTree) : List Terminal :=
  t.reached.flatMap t.terminalsAt

/-- The nodes reached from the root, by chip; of two nodes on one chip the later one counts. -/
def index (t : RouteTree) : ChipIndex :=
  t.reached.foldl (fun index n =>
    match t.chip? n with
    | some chip => index.set chip n
    | none => index) ChipIndex.empty

/-- The depths noted so far during a walk, and the largest of them. -/
structure Depths where
  noted : Std.ExtTreeMap NodeId Nat
  deepest : Nat

/-- Notes the depth of the children of a node: one more than its own. -/
def noteDepths (t : RouteTree) (d : Depths) (n : NodeId) : Depths :=
  (t.childNodes n).foldl (fun d next =>
    let depth := d.noted.getD n 0 + 1
    { noted := d.noted.insert next.2 depth, deepest := max d.deepest depth }) d

/-- The number of hops on the longest branch from the root. -/
def depth (t : RouteTree) : Nat :=
  (t.reached.foldl t.noteDepths ⟨∅, 0⟩).deepest

end RouteTree

end Multicast
