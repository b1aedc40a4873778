import Multicast.RouteError
import Multicast.Traffic.Net

/-!
# `Multicast.Entity.Graph`: entities and what they send

An application is described by entities, each made of endpoints on any number of
chips. A demand asks for traffic from one entity to others. Every core of the
sending entity then becomes the source of a net of its own.
-/

set_option autoImplicit false

namespace Multicast

/-- The entities of an application; the place of an entity is its name. -/
structure EntityGraph where
  entities : List (List Endpoint)
deriving DecidableEq

/-- Traffic from one entity to others. The first core of the source sends under `partition`, each
further one under the next. -/
structure Demand where
  partition : Partition
  source : EntityId
  targets : List EntityId
deriving DecidableEq

namespace EntityGraph

/-- The endpoints of an entity. -/
def endpoints (g : EntityGraph) (e : EntityId) : Except RouteError (List Endpoint) :=
  match g.entities[e]? with
  | some endpoints => .ok endpoints
  | none => .error (.unknownEntity e)

/-- The chips of the cores among endpoints, each once, in the order met. -/
def chipsOfCores (endpoints : List Endpoint) : List Chip :=
  distinct ((endpoints.filter Endpoint.isCore).map Endpoint.chip)

/-- The cores of an entity. -/
def cores (g : EntityGraph) (e : EntityId) : Except RouteError (List Endpoint) := do
  return (← g.endpoints e).filter Endpoint.isCore

/-- The number of partitions a demand of an entity uses: one for each of its cores. -/
def coreCount (g : EntityGraph) (e : EntityId) : Except RouteError Nat := do
  return (← g.cores e).length

/-- The chips of the cores of an entity, each once, in the order met. -/
def coreChips (g : EntityGraph) (e : EntityId) : Except RouteError (List Chip) := do
  return chipsOfCores (← g.endpoints e)

/-- The chips that count as inside an entity: those of its cores, or of its devices if it has no
core. -/
def insideChips (g : EntityGraph) (e : EntityId) : Except RouteError (List Chip) := do
  let endpoints ← g.endpoints e
  match chipsOfCores endpoints with
  | [] => return endpoints.map Endpoint.chip
  | chips => return chips

/-- Fails for the first entity of a list that does not exist. -/
def checkEntities (g : EntityGraph) : List EntityId → Except RouteError Unit
  | [] => .ok ()
  | e :: rest => do
    let _ ← g.endpoints e
    g.checkEntities rest

end EntityGraph

end Multicast
