import Multicast.Proofs.Entity.Halts
import Multicast.Proofs.Pipeline.Demands

/-!
# `Multicast.Proofs.Entity.Nets`: the nets of a demand

On a grid that has all endpoints of the graph the routing of a demand ends with nets or with
one of four errors (`Refusal`): an entity that does not exist or has no core, a dead chip of a
source, or working chips between which there is no path. That is what is left of all errors there
may be when no entity has an endpoint off the grid (`route_halts`, `route_settles`). In particular
no chip is ever visited twice and no chip is found off the grid.

The nets are those of the cores of the source, in order, under consecutive partitions.
`RoutedNet.Sound` says what the tree of each of them is: a repaired tree of that net, so over
working links only, with one node on a chip, and with one terminal for each sink. The main
statement is `route_sound`.
-/

set_option autoImplicit false

namespace Multicast

/-- The tree of a net starts on the chip of its source, has one node on a chip, follows working
links and delivers to each sink once, on its chip and by its own way out. -/
structure RoutedNet.Sound (f : Fabric) (n : RoutedNet) : Prop where
  proper : n.tree.IsProper
  root : n.tree.chip? n.tree.root = some n.net.source.chip
  nodup : n.tree.reachedChips.Nodup
  works : n.tree.EdgesWork f
  terminals : n.tree.terminals.Perm (n.net.sinks.map fun e => ⟨e.chip, some e.route, e⟩)

namespace EntityGraph

variable {g : EntityGraph} {f : Fabric} {radius : Nat} {d : Demand} {legs : List Leg}
  {source : Endpoint} {p : Partition} {n : RoutedNet} {nets : List RoutedNet}

/-! ### Errors -/

/-- A demand on the grid gets its nets, unless it is refused. -/
theorem route_settles (hgrid : ∀ endpoints ∈ g.entities, ∀ e ∈ endpoints, f.contains e.chip = true)
    (radius : Nat) (d : Demand) : Settles Refusal (fun _ => True) (g.route f radius d) := by
  refine (route_halts g f radius d).imp (fun e he => ?_) fun _ => id
  cases he with
  | refused he => exact he
  | edge c hc hmesh hstrays =>
      obtain ⟨target, -, endpoints, hendpoints, x, hx, hoff⟩ := hstrays
      have hin := hgrid endpoints (mem_entities hendpoints) x hx
      rw [hoff] at hin
      contradiction

/-! ### Nets -/

/-- The sinks of a net have no repeats, and its tree is sound. -/
theorem sound_of_routeSource (h : g.routeSource f radius d legs source p = .ok n) :
    n.net.sinks.Nodup ∧ n.Sound f := by
  obtain ⟨all, grown, r, -, rfl, hsound, hsinks, hroot, hr⟩ := routeSource_spec h
  have hnodup := nodup_distinct (all.filter fun e => e != source)
  have hrepaired := Fabric.sound_of_repair hsound.isProper hr
  exact ⟨hnodup, hrepaired.proper, hrepaired.root_chip.trans hroot,
    hrepaired.proper.nodup_reachedChips, hrepaired.works,
    hrepaired.terminals.trans (hsound.terminals_perm hsinks hnodup)⟩

/-- There is one net for each endpoint of the source entity, in the order of the endpoints. -/
theorem sources_of_routeSources {sources : List Endpoint}
    (h : g.routeSources f radius d legs p sources = .ok nets) :
    nets.map (·.net.source) = sources := by
  induction sources generalizing p nets with
  | nil =>
      obtain rfl := Except.ok.inj h
      rfl
  | cons source rest ih =>
      obtain ⟨first, hfirst, h⟩ := bind_eq_ok.1 h
      obtain ⟨others, hothers, h⟩ := bind_eq_ok.1 h
      obtain rfl := Except.ok.inj h
      obtain ⟨_, _, _, -, rfl, -⟩ := routeSource_spec hfirst
      rw [List.map_cons, ih hothers]
      rfl

/-- There is a net for each core of the source, in order, the first under the partition of the
demand and each further one under the next. -/
theorem nets_of_route (h : g.route f radius d = .ok nets) :
    ∃ cores, g.cores d.source = .ok cores ∧ nets.map (·.net.source) = cores ∧
      nets.map (·.net.partition) = d.partition.block cores.length := by
  obtain ⟨_, -, h⟩ := bind_eq_ok.1 h
  obtain ⟨cores, hcores, h⟩ := bind_eq_ok.1 h
  refine ⟨cores, hcores, ?_⟩
  split at h
  · contradiction
  · exact ⟨sources_of_routeSources h, partitions_of_routeSources h⟩

/-- With all endpoints on the grid the routing of a demand never visits a chip twice, never finds
one off the grid and never meets a conflict. When it succeeds there is one net for each core of the
source, in order and under consecutive partitions. The sinks of each net are the endpoints of the
targets without its source, none of them twice, and its tree is sound. -/
theorem route_sound (f : Fabric) (g : EntityGraph) (radius : Nat) (d : Demand)
    (hgrid : ∀ endpoints ∈ g.entities, ∀ e ∈ endpoints, f.contains e.chip = true) :
    (∀ c, g.route f radius d ≠ .error (.revisited c)) ∧
    (∀ c, g.route f radius d ≠ .error (.offMachine c)) ∧
    (∀ c p, g.route f radius d ≠ .error (.conflict c p)) ∧
    ∀ nets, g.route f radius d = .ok nets →
      (∃ cores, g.cores d.source = .ok cores ∧ nets.map (·.net.source) = cores ∧
        nets.map (·.net.partition) = d.partition.block cores.length) ∧
      ∀ n ∈ nets, n.net.sinks.Nodup ∧
        (∀ e, e ∈ n.net.sinks ↔ e ≠ n.net.source ∧
          ∃ target ∈ d.targets, ∃ endpoints, g.endpoints target = .ok endpoints ∧ e ∈ endpoints) ∧
        n.Sound f := by
  have hsettles := route_settles hgrid radius d
  refine ⟨fun c h => ?_, fun c h => ?_, fun c p h => ?_, fun nets h => ⟨nets_of_route h, ?_⟩⟩
  · rw [h] at hsettles
    cases hsettles
  · rw [h] at hsettles
    cases hsettles
  · rw [h] at hsettles
    cases hsettles
  · intro n hn
    obtain ⟨legs, source, p, hsource⟩ := exists_routeSource h hn
    obtain ⟨hnodup, hsound⟩ := sound_of_routeSource hsource
    obtain ⟨all, _, _, hall, rfl, -⟩ := routeSource_spec hsource
    exact ⟨hnodup, fun e => mem_sinks hall, hsound⟩

/-- Traffic from the split entity to its neighbour and to itself, under the last number of all. -/
def selfDemand : Demand :=
  { partition := ⟨4294967295⟩, source := 0, targets := [1, 0, 1] }

/-- Each core of the entity has its net, the second under the number zero, and delivers to the
neighbour and to the other core. -/
theorem selfDemand_sound :
    (∀ endpoints ∈ crossedGraph.entities, ∀ e ∈ endpoints, lineMesh.contains e.chip = true) ∧
    ∃ nets, crossedGraph.route lineMesh defaultRadius selfDemand = .ok nets ∧
      nets.map (·.net.source) = [.core ⟨2, 0⟩ 1, .core ⟨0, 0⟩ 1] ∧
      nets.map (·.net.partition) = [⟨4294967295⟩, ⟨0⟩] ∧ ∀ n ∈ nets, n.Sound lineMesh := by
  have hgrid : ∀ endpoints ∈ crossedGraph.entities, ∀ e ∈ endpoints,
      lineMesh.contains e.chip = true := by decide +kernel
  obtain ⟨-, -, -, hok⟩ := route_sound lineMesh crossedGraph defaultRadius selfDemand hgrid
  obtain ⟨nets, hnets⟩ :=
    exists_of_isOk (x := crossedGraph.route lineMesh defaultRadius selfDemand) (by decide +kernel)
  obtain ⟨⟨cores, hcores, hsources, hpartitions⟩, hall⟩ := hok nets hnets
  obtain rfl : [.core ⟨2, 0⟩ 1, .core ⟨0, 0⟩ 1] = cores := Except.ok.inj hcores
  exact ⟨hgrid, nets, hnets, hsources, hpartitions, fun n hn => (hall n hn).2.2⟩

end EntityGraph

end Multicast
