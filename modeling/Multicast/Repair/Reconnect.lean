import Multicast.Repair.Cut
import Multicast.Repair.Detour

/-!
# `Multicast.Repair.Reconnect`: threading detours and pruning dead ends

A detour is threaded into the tree hop by hop. A chip of the cut-off subtree it
passes is taken from its parent and hung into the detour; a new chip gets a new
node. Parents that lost a child this way, or lost one to a broken edge, are
then pruned while they forward nowhere.
-/

set_option autoImplicit false

namespace Multicast

namespace Reconnect

/-- A tree while a detour is threaded into it. -/
structure Threading where
  tree : RouteTree
  index : ChipMap
  /-- The node the next hop hangs off. -/
  last : NodeId
  /-- The nodes created. -/
  created : Nat
  /-- The chips of parents that lost a child to a detour, latest first. -/
  bereft : List Chip
deriving DecidableEq

/-- Takes a node from its parent, where it has one. -/
def detach (s : Threading) (n : NodeId) : Threading :=
  match s.tree.parent? n with
  | none => s
  | some parent =>
    let bereft := match s.tree.chip? parent with
      | some c => c :: s.bereft
      | none => s.bereft
    { s with tree := s.tree.removeEdge parent (.node n), bereft }

/-- Threads one hop that lands before the end of the detour. -/
def threadHop (subtree : Std.ExtTreeSet NodeId) (s : Threading) (hop : Hop) :
    Except RouteError Threading :=
  let route := some (Route.link hop.link)
  match s.index[hop.chip]? with
  | some n =>
    if subtree.contains n then
      let freed := detach s n
      .ok { freed with tree := freed.tree.addEdge s.last ⟨route, .node n⟩, last := n }
    else .error (.revisited hop.chip)
  | none =>
    let tree := s.tree.addChild s.last route hop.chip
    .ok { s with
      tree
      index := s.index.insert hop.chip tree.newest
      last := tree.newest
      created := s.created + 1 }

/-- Threads a detour; its last hop lands on the root of the cut-off subtree. -/
def thread (subtree : Std.ExtTreeSet NodeId) (s : Threading) :
    List Hop → Except RouteError Threading
  | [] => .ok s
  | [hop] =>
    match s.index[hop.chip]? with
    | none => .ok s
    | some n => .ok { s with tree := s.tree.addEdge s.last ⟨some (.link hop.link), .node n⟩ }
  | hop :: rest => do
    let next ← threadHop subtree s hop
    thread subtree next rest

/-- A tree while its broken edges are made good. -/
structure Mending where
  tree : RouteTree
  index : ChipMap
  added : Nat
  /-- The chips of parents that lost a child to a detour, latest first. -/
  bereft : List Chip
deriving DecidableEq

/-- Reconnects the subtree behind one broken edge. -/
def mend (f : Fabric) (s : Mending) (edge : Chip × Chip) : Except RouteError Mending :=
  match s.index[edge.2]? with
  | none => .error (.noLivePath edge.2 edge.1)
  | some child => do
    let subtree := Std.ExtTreeSet.ofList (s.tree.subtree child)
    let detour ← f.detour edge.2 edge.1 fun c =>
      match s.index[c]? with
      | some n => !subtree.contains n
      | none => false
    match s.index[detour.start]? with
    | none => return s
    | some start =>
      let threaded ← thread subtree ⟨s.tree, s.index, start, 0, s.bereft⟩ detour.hops
      return {
        tree := threaded.tree
        index := threaded.index
        added := s.added + threaded.created
        bereft := threaded.bereft }

/-- Reconnects the subtrees behind broken edges, one after another. -/
def mendAll (f : Fabric) (s : Mending) : List (Chip × Chip) → Except RouteError Mending
  | [] => .ok s
  | edge :: rest => do
    let next ← mend f s edge
    mendAll f next rest

/-- A tree while dead ends are pruned. -/
structure Pruning where
  tree : RouteTree
  index : ChipMap
  removed : Nat
deriving DecidableEq

/-- Removes a node that forwards nowhere, then its parent if that leaves it forwarding nowhere,
and so on; the root stays. No node is removed twice, so the number of nodes bounds the removals. -/
def pruneFrom : Nat → Pruning → NodeId → Pruning
  | 0, s, _ => s
  | bound + 1, s, n =>
    if n ≠ s.tree.root ∧ s.tree.isLeaf n then
      match s.tree.parent? n with
      | none => s
      | some parent =>
        let index := match s.tree.chip? n with
          | some c => s.index.erase c
          | none => s.index
        pruneFrom bound
          { tree := s.tree.removeEdge parent (.node n), index, removed := s.removed + 1 } parent
    else s

/-- Prunes upwards from the node on a chip. -/
def prune (s : Pruning) (c : Chip) : Pruning :=
  match s.index[c]? with
  | none => s
  | some n => pruneFrom s.tree.size s n

end Reconnect

end Multicast
