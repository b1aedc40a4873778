import Multicast.Entity.Graph
import Multicast.Machine.Fabric
import Multicast.Search.Explore

/-!
# `Multicast.Entity.LocalTree`: spreading inside an entity

The local tree of a chip of an entity spans every chip of the entity that can be
reached from it over working links without leaving the entity, each along a
shortest such way.
-/

set_option autoImplicit false

namespace Multicast

/-- A spanning tree over chips, as the walk that found it. -/
structure LocalTree where
  root : Chip
  arrivals : List (Search.Arrival Chip Direction)
deriving DecidableEq

namespace LocalTree

/-- The working links of a chip that stay within a set of chips. -/
def linksWithin (f : Fabric) (chips : Std.ExtTreeSet Chip) (c : Chip) : List (Direction × Chip) :=
  ((f.liveLinks c).filter fun hop => chips.contains hop.chip).map fun hop => (hop.link, hop.chip)

/-- The tree that spans what can be reached from a root within a set of chips. -/
def span (f : Fabric) (root : Chip) (chips : Std.ExtTreeSet Chip) : LocalTree :=
  { root, arrivals := Search.breadthFirst (linksWithin f chips) (chips.size + 1) root }

/-- The edges of the tree, nearest first. -/
def edges (t : LocalTree) : List (Search.Step Chip Direction) :=
  t.arrivals.filterMap fun a => a.via.map fun (parent, link) => ⟨parent, link, a.node⟩

/-- Whether the tree spans a chip. -/
def contains (t : LocalTree) (c : Chip) : Bool :=
  t.arrivals.any fun a => a.node == c

/-- The hops from the root to a chip the tree spans. -/
def pathTo? (t : LocalTree) (c : Chip) : Option (List Hop) :=
  if t.contains c then
    some ((Search.route t.arrivals c).map fun step => ⟨step.edge, step.target⟩)
  else none

end LocalTree

/-- The local tree of an entity rooted at a chip, if the entity has a core there. -/
def EntityGraph.localTree? (g : EntityGraph) (f : Fabric) (e : EntityId) (root : Chip) :
    Option LocalTree :=
  match g.coreChips e with
  | .error _ => none
  | .ok chips =>
    let set := Std.ExtTreeSet.ofList chips
    if set.contains root then some (.span f root set) else none

end Multicast
