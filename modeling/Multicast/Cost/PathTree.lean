import Multicast.Cost.Retrace
import Multicast.Growth.Attach
import Multicast.Growth.Spread

/-!
# `Multicast.Cost.PathTree`: paths merged into a tree

Paths from one source make a tree when each chip is always entered from the
same chip over the same link, and the source never. They are merged hop by hop;
a hop onto a chip that is already there must follow the edge by which it is.
-/

set_option autoImplicit false

namespace Multicast

namespace CostPaths

/-- Follows or adds one hop below a node; answers the node it leads to. -/
def mergeHop (g : Growth) (last : NodeId) (hop : Hop) : Except RouteError (Growth × NodeId) :=
  let route := some (Route.link hop.link)
  match g.index.get? hop.chip with
  | some n =>
    if (g.tree.edges last).contains ⟨route, .node n⟩ then .ok (g, n)
    else .error (.revisited hop.chip)
  | none =>
    let tree := g.tree.addChild last route hop.chip
    .ok ({ tree, index := g.index.set hop.chip tree.newest }, tree.newest)

/-- Merges a path below a node. -/
def mergePath (g : Growth) (last : NodeId) : List Hop → Except RouteError Growth
  | [] => .ok g
  | hop :: rest => do
    let (next, n) ← mergeHop g last hop
    mergePath next n rest

/-- Merges paths below the root. -/
def mergePaths (g : Growth) : List (Chip × List Hop) → Except RouteError Growth
  | [] => .ok g
  | path :: rest => do
    let next ← mergePath g g.tree.root path.2
    mergePaths next rest

/-- The paths as one tree, with the index of its chips. -/
def grow (p : CostPaths) : Except RouteError Growth :=
  mergePaths (Growth.single p.source) p.paths

/-- The paths as one tree. -/
def toTree (p : CostPaths) : Except RouteError RouteTree := do
  let g ← p.grow
  return g.tree

end CostPaths

namespace CostRouter

variable {ν : Type} [Quantity ν]

/-- The tree of a net over the cheapest paths, without counting what it uses. -/
def netTree (r : CostRouter ν) (net : Net) : Except RouteError RouteTree :=
  match r.machine.firstOff? net.chips with
  | some c => .error (.offMachine c)
  | none => do
    let paths ← r.paths net.source.chip net.sinkChips
    let tree ← paths.toTree
    let grown ← (Growth.ofTree tree).addTerminals net.source.chip net.sinks
    return grown.tree

/-- Routes a net and counts what its tree uses. A failure changes nothing. -/
def routeNet (r : CostRouter ν) (net : Net) : Except RouteError (RouteTree × CostRouter ν) := do
  let tree ← r.netTree net
  return (tree, r.commit tree)

end CostRouter

end Multicast
