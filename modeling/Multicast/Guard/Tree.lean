import Multicast.Misuse
import Multicast.Table.Flatten
import Multicast.Tree.Walk

/-!
# `Multicast.Guard.Tree`: calls on a tree, checked

The same calls as without the guard, but using a node the row does not hold is
an error. A walk uses every node it reaches.
-/

set_option autoImplicit false

namespace Multicast.Guard

variable {α : Type}

/-- An answer that used a node. -/
def atNode (t : RouteTree) (n : NodeId) (a : α) : Except Misuse α :=
  if n < t.size then .ok a else .error (.missingNode n)

/-- An answer that used a node and everything below it. -/
def below (t : RouteTree) (n : NodeId) (a : α) : Except Misuse α :=
  match (t.subtree n).find? fun m => decide (t.size ≤ m) with
  | some m => .error (.missingNode m)
  | none => .ok a

/-- An answer that walked the tree. -/
def walked (t : RouteTree) (a : α) : Except Misuse α :=
  below t t.root a

/-- Adds an edge to a node. -/
def addEdge (t : RouteTree) (parent : NodeId) (e : Edge) : Except Misuse RouteTree :=
  atNode t parent (t.addEdge parent e)

/-- Adds a node together with the edge that leads to it. The node is there even if its parent is
not; a node may be its own parent. -/
def addChild (t : RouteTree) (parent : NodeId) (route : Option Route) (c : Chip) :
    RouteTree × Option Misuse :=
  if parent ≤ t.size then (t.addChild parent route c, none)
  else (t.addNode c, some (.missingNode parent))

/-- Takes out the first edge of a node that leads to a child, and answers its way out. -/
def removeEdge (t : RouteTree) (parent : NodeId) (child : Child) :
    Except Misuse (Option (Option Route) × RouteTree) :=
  atNode t parent (t.routeTo? parent child, t.removeEdge parent child)

end Multicast.Guard
