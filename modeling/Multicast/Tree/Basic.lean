import Multicast.Traffic.Endpoint

/-!
# `Multicast.Tree.Basic`: routing trees

A routing tree says how the packets of one net spread. Its nodes are kept in a
row and named by their places, so nodes can be created, attached and detached
one at a time; a detached node stays in the row. A node holds the edges that
leave it, in the order in which they were added. Nothing stores the parent of a
node: it is the node that holds an edge to it.

An edge may name a node the row does not hold, and the edges need not form a
tree. The walks of `Multicast.Tree.Walk` are defined for every row.
-/

set_option autoImplicit false

namespace Multicast

/-- The place of a node in the row of its tree. -/
abbrev NodeId := Nat

/-- What an edge leads to: a node on another chip, or an endpoint on this one. -/
inductive Child where
  | node (id : NodeId)
  | terminal (endpoint : Endpoint)
deriving DecidableEq, Inhabited

/-- An edge: the way out of the chip, where one is fixed, and what it leads to. -/
structure Edge where
  route : Option Route
  child : Child
deriving DecidableEq, Inhabited

/-- A node: its chip and the edges that leave it. -/
structure Node where
  chip : Chip
  edges : Array Edge
deriving DecidableEq, Inhabited

/-- A row of nodes and the place of its root. -/
structure RouteTree where
  nodes : Array Node
  root : NodeId
deriving DecidableEq, Inhabited

namespace RouteTree

/-- The tree that is only a root. -/
def single (c : Chip) : RouteTree :=
  { nodes := #[⟨c, #[]⟩], root := 0 }

/-- The number of nodes in the row. -/
def size (t : RouteTree) : Nat :=
  t.nodes.size

/-- The chip of a node. -/
def chip? (t : RouteTree) (n : NodeId) : Option Chip :=
  (t.nodes[n]?).map (·.chip)

/-- The edges of a node, none where the row does not hold it. -/
def edges (t : RouteTree) (n : NodeId) : List Edge :=
  match t.nodes[n]? with
  | some node => node.edges.toList
  | none => []

/-- Whether no edge leaves a node. -/
def isLeaf (t : RouteTree) (n : NodeId) : Bool :=
  (t.edges n).isEmpty

/-- Adds a node that no edge leads to. -/
def addNode (t : RouteTree) (c : Chip) : RouteTree :=
  { t with nodes := t.nodes.push ⟨c, #[]⟩ }

/-- The place of the node added last. -/
def newest (t : RouteTree) : NodeId :=
  t.size - 1

/-- Adds an edge behind the others of a node. -/
def addEdge (t : RouteTree) (parent : NodeId) (e : Edge) : RouteTree :=
  { t with nodes := t.nodes.modify parent fun node => { node with edges := node.edges.push e } }

/-- Adds a node together with the edge that leads to it. -/
def addChild (t : RouteTree) (parent : NodeId) (route : Option Route) (c : Chip) : RouteTree :=
  let added := t.addNode c
  added.addEdge parent ⟨route, .node added.newest⟩

/-- The way out of the first edge of a node that leads to a child. -/
def routeTo? (t : RouteTree) (parent : NodeId) (child : Child) : Option (Option Route) :=
  ((t.edges parent).find? fun e => e.child == child).map (·.route)

/-- Takes out the first edge of a node that leads to a child. -/
def removeEdge (t : RouteTree) (parent : NodeId) (child : Child) : RouteTree :=
  { t with nodes := t.nodes.modify parent fun node =>
      { node with edges := node.edges.eraseP fun e => e.child == child } }

/-- The first node of the row with an edge to a node. -/
def parent? (t : RouteTree) (n : NodeId) : Option NodeId :=
  t.nodes.findIdx? fun node => node.edges.any fun e => e.child == .node n

/-- One more node makes the row longer by one. -/
@[simp] theorem size_addNode (t : RouteTree) (c : Chip) : (t.addNode c).size = t.size + 1 := by
  simp [addNode, size]

/-- Edges do not make the row longer. -/
@[simp] theorem size_addEdge (t : RouteTree) (parent : NodeId) (e : Edge) :
    (t.addEdge parent e).size = t.size := by
  simp [addEdge, size]

/-- A child is one more node. -/
@[simp] theorem size_addChild (t : RouteTree) (parent : NodeId) (route : Option Route) (c : Chip) :
    (t.addChild parent route c).size = t.size + 1 := by
  simp [addChild]

/-- The place of an added node is the old size of the row. -/
@[simp] theorem newest_addNode (t : RouteTree) (c : Chip) : (t.addNode c).newest = t.size := by
  simp [newest]

/-- The node added last is the child itself, in the place behind those that were there. -/
@[simp] theorem newest_addChild (t : RouteTree) (parent : NodeId) (route : Option Route)
    (c : Chip) : (t.addChild parent route c).newest = t.size := by
  simp [newest]

end RouteTree

end Multicast
