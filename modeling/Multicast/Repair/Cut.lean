import Multicast.Machine.Fabric
import Multicast.RouteError
import Multicast.Tree.Walk

/-!
# `Multicast.Repair.Cut`: copying a tree without what is dead

A tree is copied level by level. A dead chip is left out and its children are
hung under the nearest live node above it; an edge that does not follow a
working link to its child is left out, but the child and everything below it
are copied all the same and stay in the index. A terminal on a dead chip, or a
chip met twice, ends the copy.

Dead chips are not marked as seen, so a ring of them is copied round for ever:
`run` answers `none` when the given number of levels was not enough. A copy that
ends needs no more than `enough`: a walk down the tree that passes a node twice
has gone round a ring; a ring with a live chip in it ends the copy, and all that
hangs off a ring of dead chips is met again on the second round.
-/

set_option autoImplicit false

namespace Multicast

/-- A copied tree with its broken edges left out. -/
structure CutTree where
  tree : RouteTree
  /-- Every chip of the copy, cut off or not. -/
  index : ChipMap
  /-- The chips at both ends of each edge left out. -/
  broken : List (Chip × Chip)
  /-- The dead chips left out. -/
  dead : List Chip
deriving DecidableEq

namespace Cut

/-- A node whose edges are still to be copied, and the node of the copy they go to. -/
structure Job where
  node : NodeId
  chip : Chip
  parent : NodeId
  parentChip : Chip
deriving DecidableEq

/-- A copy under way. -/
structure State where
  tree : RouteTree
  index : ChipMap
  /-- The edges left out, latest first. -/
  broken : List (Chip × Chip)
  /-- The dead chips left out, latest first. -/
  dead : List Chip
  /-- The jobs of the next level, latest first. -/
  jobs : List Job
deriving DecidableEq

/-- What has been copied. -/
def State.copied (s : State) : CutTree :=
  { tree := s.tree, index := s.index, broken := s.broken.reverse, dead := s.dead.reverse }

/-- Whether an edge follows a working link to a chip. -/
def landsOn (f : Fabric) (source : Chip) (route : Option Route) (target : Chip) : Bool :=
  match route with
  | some (.link d) => f.follow? source d == some target
  | _ => false

/-- Leaves out a node on a dead chip. -/
def skip (job : Job) (s : State) (node : NodeId) (chip : Chip) : State :=
  { s with
    dead := chip :: s.dead
    jobs := ⟨node, chip, job.parent, job.parentChip⟩ :: s.jobs }

/-- Copies a node on a live chip, with the edge that leads to it if that works. -/
def copyNode (f : Fabric) (job : Job) (s : State) (route : Option Route) (node : NodeId)
    (chip : Chip) : State :=
  let tree := s.tree.addNode chip
  let copy := tree.newest
  let index := s.index.insert chip copy
  let jobs := ⟨node, chip, copy, chip⟩ :: s.jobs
  if landsOn f job.parentChip route chip then
    { s with tree := tree.addEdge job.parent ⟨route, .node copy⟩, index, jobs }
  else { s with tree, index, jobs, broken := (job.parentChip, chip) :: s.broken }

/-- Copies one edge. -/
def copyEdge (f : Fabric) (whole : RouteTree) (rootChip : Chip) (job : Job) (s : State)
    (e : Edge) : Except RouteError State :=
  match e.child with
  | .terminal _ =>
    if f.isChip job.chip then .ok { s with tree := s.tree.addEdge job.parent e }
    else .error (.noLivePath rootChip job.chip)
  | .node node =>
    match whole.chip? node with
    | none => .error (.misuse (.missingNode node))
    | some chip =>
      if !f.isChip chip then .ok (skip job s node chip)
      else if s.index.contains chip then .error (.revisited chip)
      else .ok (copyNode f job s e.route node chip)

/-- Copies edges one after another. -/
def copyEdges (f : Fabric) (whole : RouteTree) (rootChip : Chip) (job : Job) :
    State → List Edge → Except RouteError State
  | s, [] => .ok s
  | s, e :: rest =>
    match copyEdge f whole rootChip job s e with
    | .error error => .error error
    | .ok next => copyEdges f whole rootChip job next rest

/-- Does the jobs of one level, one after another. -/
def copyLevel (f : Fabric) (whole : RouteTree) (rootChip : Chip) :
    State → List Job → Except RouteError State
  | s, [] => .ok s
  | s, job :: rest =>
    match copyEdges f whole rootChip job s (whole.edges job.node) with
    | .error error => .error error
    | .ok next => copyLevel f whole rootChip next rest

/-- Copies level by level, at most the given number of them; `none` if that was not enough. -/
def run (f : Fabric) (whole : RouteTree) (rootChip : Chip) :
    Nat → State → Option (Except RouteError CutTree)
  | levels, s =>
    match s.jobs, levels with
    | [], _ => some (.ok s.copied)
    | _ :: _, 0 => none
    | jobs@(_ :: _), levels + 1 =>
      match copyLevel f whole rootChip { s with jobs := [] } jobs.reverse with
      | .error error => some (.error error)
      | .ok next => run f whole rootChip levels next

/-- The copy that holds only the root. -/
def initial (whole : RouteTree) (rootChip : Chip) : State :=
  { tree := .single rootChip
    index := (∅ : ChipMap).insert rootChip 0
    broken := []
    dead := []
    jobs := [⟨whole.root, rootChip, 0, rootChip⟩] }

/-- A number of levels no copy that ends exceeds. -/
def enough (t : RouteTree) : Nat :=
  2 * t.size + 2

end Cut

/-- The copy of a tree without its dead chips and broken edges. -/
def Fabric.cut (f : Fabric) (t : RouteTree) : Except RouteError CutTree :=
  match t.chip? t.root with
  | none => .error (.misuse (.missingNode t.root))
  | some rootChip =>
    if f.isChip rootChip then
      match Cut.run f t rootChip (Cut.enough t) (Cut.initial t rootChip) with
      | some result => result
      | none => .error (.misuse .endlessTree)
    else .error (.deadRoot rootChip)

end Multicast
