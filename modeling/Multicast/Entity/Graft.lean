import Multicast.Entity.Corridor
import Multicast.Entity.LocalTree
import Multicast.Growth.Attach
import Multicast.Repair.Repair

/-!
# `Multicast.Entity.Graft`: the tree of one source of a demand

The tree of a source is put together from ready-made pieces: the local tree of
the source, the corridor to each receiving entity and the local tree at its far
end. What is already in the tree is not added again. Sinks the pieces do not
cover are attached one by one, and the whole is repaired.
-/

set_option autoImplicit false

namespace Multicast

/-- A net with its repaired tree. -/
structure RoutedNet where
  net : Net
  tree : RouteTree
  report : RepairReport
deriving DecidableEq

namespace Growth

/-- Adds an edge of a local tree, unless its chip is there or its parent is not. -/
def graftEdge (g : Growth) (edge : Search.Step Chip Direction) : Growth :=
  if g.index.contains edge.target then g
  else
    match g.index.get? edge.source with
    | none => g
    | some parent =>
      let tree := g.tree.addChild parent (some (.link edge.edge)) edge.target
      { tree, index := g.index.set edge.target tree.newest }

/-- Adds what a local tree spans, if its root is in the tree. -/
def graft (g : Growth) (piece : Option LocalTree) : Growth :=
  match piece with
  | some tree => if g.index.contains tree.root then tree.edges.foldl graftEdge g else g
  | none => g

/-- Adds the part of a path behind the last chip in the tree. -/
def appendPath (g : Growth) (start : Chip) (hops : List Hop) : Except RouteError Growth :=
  (g.append (Anchor.truncate g.index.contains start hops)).result

end Growth

/-- What all nets of a demand share on the way to one target. Each part is worked out when it is
first asked for. -/
structure Leg where
  target : EntityId
  corridor : Thunk (Except RouteError Corridor)
  /-- The local tree where the corridor ends. -/
  farEnd : Thunk (Option LocalTree)

namespace EntityGraph

/-- The leg from one entity to another. -/
def leg (g : EntityGraph) (f : Fabric) (source target : EntityId) : Leg :=
  let corridor := Thunk.mk fun _ => g.corridor f source target
  { target
    corridor
    farEnd := Thunk.mk fun _ =>
      match corridor.get with
      | .ok c => g.localTree? f target c.entry
      | .error _ => none }

end EntityGraph

namespace Growth

/-- Brings the exit of a corridor into the tree of a source: along the local tree of the source
where that spans it, else like a sink. -/
def reachExit (grown : Growth) (f : Fabric) (radius : Nat) (start exit : Chip)
    (nearEnd : Option LocalTree) : Except RouteError Growth :=
  match nearEnd.bind fun tree => tree.pathTo? exit with
  | some hops => grown.appendPath start hops
  | none => (grown.attach f.toGrid exit radius).result

/-- Adds the pieces that lead to one target. A target that is the source itself takes only the
local tree of the source. -/
def graftLeg (grown : Growth) (f : Fabric) (radius : Nat) (source : EntityId) (start : Chip)
    (nearEnd : Thunk (Option LocalTree)) (leg : Leg) : Except RouteError Growth :=
  if leg.target = source then .ok (grown.graft nearEnd.get)
  else do
    let corridor ← leg.corridor.get
    let atExit ←
      if grown.index.contains corridor.exit then .ok grown
      else grown.reachExit f radius start corridor.exit nearEnd.get
    let joined ← atExit.appendPath corridor.exit corridor.hops
    return joined.graft leg.farEnd.get

/-- Adds the pieces that lead to targets, one after another. -/
def graftLegs (grown : Growth) (f : Fabric) (radius : Nat) (source : EntityId) (start : Chip)
    (nearEnd : Thunk (Option LocalTree)) : List Leg → Except RouteError Growth
  | [] => .ok grown
  | leg :: rest => do
    let next ← grown.graftLeg f radius source start nearEnd leg
    next.graftLegs f radius source start nearEnd rest

end Growth

namespace EntityGraph

/-- The endpoints of entities, in order. -/
def endpointsOfAll (g : EntityGraph) : List EntityId → Except RouteError (List Endpoint)
  | [] => .ok []
  | e :: rest => do
    let first ← g.endpoints e
    let others ← g.endpointsOfAll rest
    return first ++ others

/-- The net of one source of a demand, with its tree. -/
def routeSource (g : EntityGraph) (f : Fabric) (radius : Nat) (d : Demand) (legs : List Leg)
    (source : Endpoint) (partition : Partition) : Except RouteError RoutedNet :=
  if f.isChip source.chip then do
    let sinks ← g.endpointsOfAll d.targets
    let net := Net.of partition source (sinks.filter fun e => e != source)
    let nearEnd := Thunk.mk fun _ => g.localTree? f d.source source.chip
    let grafted ←
      (Growth.single source.chip).graftLegs f radius d.source source.chip nearEnd legs
    let attached ← grafted.attachAll f.toGrid radius (net.sinks.map Endpoint.chip)
    let grown ← attached.addTerminals source.chip net.sinks
    let repaired ← f.repair grown.tree
    return ⟨net, repaired.tree, repaired.report⟩
  else .error (.deadRoot source.chip)

/-- The nets of the sources of a demand, under consecutive partitions. -/
def routeSources (g : EntityGraph) (f : Fabric) (radius : Nat) (d : Demand) (legs : List Leg) :
    Partition → List Endpoint → Except RouteError (List RoutedNet)
  | _, [] => .ok []
  | partition, source :: rest => do
    let first ← g.routeSource f radius d legs source partition
    let others ← g.routeSources f radius d legs (partition.offset 1) rest
    return first :: others

/-- The nets of a demand, one for each core of its source. -/
def route (g : EntityGraph) (f : Fabric) (radius : Nat) (d : Demand) :
    Except RouteError (List RoutedNet) := do
  g.checkEntities d.targets
  match ← g.cores d.source with
  | [] => .error (.noCore d.source)
  | sources => g.routeSources f radius d (d.targets.map (g.leg f d.source)) d.partition sources

end EntityGraph

end Multicast
