import Multicast.Cost.PathTree
import Multicast.Entity.Graft
import Multicast.Pipeline.Options
import Multicast.Pipeline.Report

/-!
# `Multicast.Pipeline.Route`: from traffic to routing tables

Nets are routed in the order given and their entries merged into one set of
tables. The first failure ends the run. Everything worth telling goes into the
log of the run.
-/

set_option autoImplicit false

namespace Multicast

/-- A run under way. -/
structure Run where
  tables : Tables
  log : Log
  /-- The number of nets routed so far. -/
  routed : Nat

/-- A run that failed: the error, and the log up to it. -/
structure Stopped where
  error : RouteError
  log : Log

/-- What a run leaves: its log, and its tables or the error that ended it. -/
structure Outcome where
  log : Log
  result : Except RouteError Tables

/-- The tree of a net grown sink by sink and repaired. -/
def Fabric.routeNet (f : Fabric) (net : Net) (radius : Nat) : Except RouteError RoutedNet := do
  let grown ← f.spreadNet net radius
  let repaired ← f.repair grown.tree
  return ⟨net, repaired.tree, repaired.report⟩

namespace Run

/-- Nothing is routed yet. -/
def start : Run := ⟨.empty, .empty, 0⟩

/-- A step that fails ends the run. -/
def attempt {α : Type} (r : Run) : Except RouteError α → Except Stopped α
  | .ok a => .ok a
  | .error e => .error ⟨e, r.log⟩

/-- Reports the repairs of a net and merges its entries. -/
def record (r : Run) (n : RoutedNet) : Except Stopped Run :=
  let log := r.log.emitAll (Report.ofRepair n.net.partition n.report)
  match r.tables.addTree n.net.partition n.tree (some n.net.source) with
  | (tables, none) => .ok { tables, log, routed := r.routed + 1 }
  | (_, some e) => .error ⟨e, log⟩

/-- Records nets one after another. -/
def recordAll (r : Run) : List RoutedNet → Except Stopped Run
  | [] => .ok r
  | n :: rest => do
    let next ← r.record n
    next.recordAll rest

variable {ν : Type}

/-- Routes nets with trees grown sink by sink. -/
def nearest (f : Fabric) (o : Options ν) (r : Run) : List Net → Except Stopped Run
  | [] => .ok r
  | net :: rest => do
    r.attempt o.checkCancelled
    let routed ← r.attempt (f.routeNet net o.radius)
    let next ← r.record routed
    nearest f o next rest

/-- Routes nets over cheapest paths; each net finds the links as the nets before it left them.
Nothing is repaired, since cheapest paths use working links only. -/
def cheapest [Quantity ν] (o : Options ν) (router : CostRouter ν) (r : Run) :
    List Net → Except Stopped Run
  | [] => .ok r
  | net :: rest => do
    r.attempt o.checkCancelled
    let (tree, used) ← r.attempt (router.routeNet net)
    let next ← r.record ⟨net, tree, .clean⟩
    cheapest o used next rest

/-- Routes demands between entities. -/
def demands (f : Fabric) (g : EntityGraph) (o : Options ν) (r : Run) :
    List Demand → Except Stopped Run
  | [] => .ok r
  | d :: rest => do
    r.attempt o.checkCancelled
    let nets ← r.attempt (g.route f o.radius d)
    let next ← r.recordAll nets
    demands f g o next rest

/-- Ends a run: a failure is reported as an error; tables get their warnings and a summary. -/
def finish (capacity : Chip → Nat) : Except Stopped Run → Outcome
  | .ok r => ⟨r.log.emitAll (Report.ofSuccess r.tables capacity r.routed), .ok r.tables⟩
  | .error s => ⟨s.log.emit (Report.ofError s.error), .error s.error⟩

end Run

namespace Machine

variable {ν : Type} [Quantity ν]

/-- Routes nets into tables. -/
def routeNets (m : Machine ν) (nets : List Net) (o : Options ν) : Outcome :=
  Run.finish m.entries <|
    match o.algorithm with
    | .nearest => Run.nearest m.toFabric o .start nets
    | .cheapest => do
      let router ← Run.start.attempt (CostRouter.create m o.weights)
      Run.cheapest o router .start nets

/-- Routes the traffic between entities into tables. -/
def routeDemands (m : Machine ν) (g : EntityGraph) (demands : List Demand) (o : Options ν) :
    Outcome :=
  Run.finish m.entries (Run.demands m.toFabric g o .start demands)

end Machine

end Multicast
