import Multicast.Proofs.Entity.Graft
import Multicast.Proofs.Growth.Spread
import Multicast.Proofs.Repair.Repair
import Multicast.Proofs.Table.Delivery

/-!
# `Multicast.Proofs.Entity.Delivery`: what the nets of a demand deliver

The sinks of a net are the endpoints of the targets but for its source
(`EntityGraph.mem_sinks`). Its tree is put together, repaired and spans the net
(`EntityGraph.spans_of_route`). So its entries never disagree in empty tables, and its
packets reach every sink; but `Growth.Rooted` does not exclude dead ends, the repair
prunes only next to what it replaced, and where a working link leads to a dead end
packets seem to reach a device. `EntityGraph.route_exact_iff` says that this is all
that can go wrong, and `crossed_phantom` that it does.
-/

set_option autoImplicit false

namespace Multicast

namespace RoutedNet

/-- The tables that hold the entries of a net and no others. -/
def tables (n : RoutedNet) : Tables :=
  (Tables.empty.addTree n.net.partition n.tree (some n.net.source)).1

/-- The endpoints that the packets of a net reach by its own entries. -/
def reached (f : Fabric) (n : RoutedNet) : List Endpoint :=
  n.tables.reached f n.net.partition n.net.source

end RoutedNet

namespace EntityGraph

variable {f : Fabric} {g : EntityGraph} {radius : Nat} {d : Demand} {legs : List Leg}
  {source : Endpoint} {p : Partition} {n : RoutedNet} {nets : List RoutedNet}

/-- The endpoints found for an entity are one of the lists in the graph. -/
theorem mem_entities {e : EntityId} {endpoints : List Endpoint}
    (h : g.endpoints e = .ok endpoints) : endpoints ∈ g.entities := by
  unfold EntityGraph.endpoints at h
  split at h
  · next known hknown =>
    obtain rfl := Except.ok.inj h
    exact List.mem_of_getElem? hknown
  · contradiction

/-- The endpoints gathered for some targets are those of any of them, and all targets exist. -/
theorem mem_endpointsOfAll {targets : List EntityId} {all : List Endpoint}
    (h : g.endpointsOfAll targets = .ok all) {e : Endpoint} :
    e ∈ all ↔ ∃ target ∈ targets, ∃ endpoints, g.endpoints target = .ok endpoints ∧
      e ∈ endpoints := by
  induction targets generalizing all with
  | nil =>
      obtain rfl := Except.ok.inj h
      simp
  | cons target rest ih =>
      obtain ⟨first, hfirst, h⟩ := bind_eq_ok.1 h
      obtain ⟨others, hothers, h⟩ := bind_eq_ok.1 h
      obtain rfl := Except.ok.inj h
      simp [ih hothers, hfirst]

/-- The sinks of a net are the endpoints of the targets but for its source. -/
theorem mem_sinks {all : List Endpoint} (h : g.endpointsOfAll d.targets = .ok all) {e : Endpoint} :
    e ∈ (Net.of p source (all.filter fun e => e != source)).sinks ↔ e ≠ source ∧
      ∃ target ∈ d.targets, ∃ endpoints, g.endpoints target = .ok endpoints ∧ e ∈ endpoints := by
  rw [Net.of, mem_distinct, List.mem_filter, mem_endpointsOfAll h, bne_iff_ne, and_comm]

/-- What a source is routed to: a net over the endpoints of the targets, and the repair of a tree
off which its sinks hang. -/
theorem routeSource_spec (h : g.routeSource f radius d legs source p = .ok n) :
    ∃ all grown r, g.endpointsOfAll d.targets = .ok all ∧
      n = ⟨Net.of p source (all.filter fun e => e != source), r.tree, r.report⟩ ∧
      Growth.Sound (fun _ => True) n.net.sinks grown ∧
      (∀ e ∈ n.net.sinks, grown.index.contains e.chip = true) ∧
      grown.tree.chip? grown.tree.root = some source.chip ∧ f.repair grown.tree = .ok r := by
  unfold routeSource at h
  split at h
  · -- The steps in their order: legs grafted, sinks attached, endpoints hung up, tree repaired.
    obtain ⟨all, hall, h⟩ := bind_eq_ok.1 h
    obtain ⟨grafted, hgrafted, h⟩ := bind_eq_ok.1 h
    obtain ⟨attached, hattached, h⟩ := bind_eq_ok.1 h
    obtain ⟨grown, hgrown, h⟩ := bind_eq_ok.1 h
    obtain ⟨r, hr, h⟩ := bind_eq_ok.1 h
    obtain rfl := Except.ok.inj h
    have hrooted := ((Growth.rooted_single source.chip).graftLegs hgrafted).attachAll hattached
    obtain ⟨hsound, hindex, hsinks⟩ := hrooted.sound.addTerminals hgrown
    refine ⟨all, grown, r, hall, rfl, hsound, hindex ▸ hsinks, ?_, hr⟩
    rw [hsound.root]
    exact hsound.indexed.1 (hindex ▸ hrooted.root)
  · contradiction

/-- Each net of a source came from an endpoint of the entity, routed for itself. -/
theorem exists_source {sources : List Endpoint}
    (h : g.routeSources f radius d legs p sources = .ok nets) (hn : n ∈ nets) :
    ∃ source p, g.routeSource f radius d legs source p = .ok n := by
  induction sources generalizing p nets with
  | nil =>
      obtain rfl := Except.ok.inj h
      contradiction
  | cons source rest ih =>
      obtain ⟨first, hfirst, h⟩ := bind_eq_ok.1 h
      obtain ⟨others, hothers, h⟩ := bind_eq_ok.1 h
      obtain rfl := Except.ok.inj h
      rcases List.mem_cons.1 hn with rfl | hn
      · exact ⟨source, p, hfirst⟩
      · exact ih hothers hn

/-- Every net of a demand comes from one of its sources. -/
theorem exists_routeSource (h : g.route f radius d = .ok nets) (hn : n ∈ nets) :
    ∃ legs source p, g.routeSource f radius d legs source p = .ok n := by
  obtain ⟨_, -, h⟩ := bind_eq_ok.1 h
  obtain ⟨sources, -, h⟩ := bind_eq_ok.1 h
  split at h
  · contradiction
  · exact ⟨_, exists_source h hn⟩

/-- The tree of a net spans it, if no device of the graph hangs on a working link. -/
theorem spans_of_routeSource (h : g.routeSource f radius d legs source p = .ok n)
    (hdevices : ∀ endpoints ∈ g.entities, ∀ c link, .device c link ∈ endpoints →
      f.isLink c link = false)
    (hne : n.net.sinks ≠ []) : n.tree.Spans f n.net.source.chip n.net.sinks := by
  obtain ⟨all, grown, r, hall, rfl, hsound, hsinks, hroot, hr⟩ := routeSource_spec h
  have hrepaired := Fabric.sound_of_repair hsound.isProper hr
  refine .of_named hrepaired.proper (hrepaired.root_chip.trans hroot) hrepaired.works
    (fun x => ?_) ?_ hne
  · rw [hrepaired.terminals.mem_iff, hsound.mem_terminals hsinks]
  · intro c link hdevice
    obtain ⟨-, target, -, endpoints, hendpoints, hmem⟩ := (mem_sinks hall).1 hdevice
    exact hdevices endpoints (mem_entities hendpoints) c link hmem

/-- Every net of a demand reaches the endpoints of the targets but for its source. Besides it can
only reach devices that are not there, over working links; it reaches none exactly if no node of
its tree forwards nowhere. -/
theorem route_exact_iff (f : Fabric) (g : EntityGraph) (radius : Nat) (d : Demand)
    (nets : List RoutedNet) (h : g.route f radius d = .ok nets)
    (hdevices : ∀ endpoints ∈ g.entities, ∀ c link, .device c link ∈ endpoints →
      f.isLink c link = false)
    (n : RoutedNet) (hn : n ∈ nets) (hne : n.net.sinks ≠ []) :
    (∀ e, e ∈ n.net.sinks ↔ e ≠ n.net.source ∧
      ∃ target ∈ d.targets, ∃ endpoints, g.endpoints target = .ok endpoints ∧ e ∈ endpoints) ∧
    Tables.empty.addTree n.net.partition n.tree (some n.net.source) = (n.tables, none) ∧
    (∀ e ∈ n.net.sinks, e ∈ n.reached f) ∧
    (∀ e ∈ n.reached f, e ∈ n.net.sinks ∨ ∃ c link, e = .device c link ∧ f.isLink c link = true) ∧
    ((∀ e, e ∈ n.reached f ↔ e ∈ n.net.sinks) ↔ n.tree.NoDeadEnd) := by
  obtain ⟨legs, source, p, hsource⟩ := exists_routeSource h hn
  have hspans := spans_of_routeSource hsource hdevices hne
  obtain ⟨all, _, _, hall, rfl, -⟩ := routeSource_spec hsource
  obtain ⟨tables, htables⟩ := hspans.proper.addTree_empty p (some source)
  -- Fresh tables have no entry that a dead end could meet.
  have hcarries := hspans.carries htables fun _ _ _ _ _ => Tables.get?_empty _
  obtain rfl : _ = tables := congrArg Prod.fst htables
  refine ⟨fun e => mem_sinks hall, htables, fun e he => ?_, fun e he => ?_,
    hspans.reached_iff_noDeadEnd hcarries source rfl⟩
  · exact (hspans.mem_reached hcarries source rfl).2 (.inl he)
  · refine ((hspans.mem_reached hcarries source rfl).1 he).imp_right ?_
    rintro ⟨m, k, c, link, hm, hc, hk, -, rfl⟩
    exact ⟨c, link, rfl, hspans.isLink_of_edge hm hc hk⟩

/-- Three chips in a row. -/
def lineMesh : Fabric := .intact { width := 3, height := 1, wraps := false }

/-- An entity at both ends of the row and one between them. -/
def crossedGraph : EntityGraph :=
  ⟨[[.core ⟨2, 0⟩ 1, .core ⟨0, 0⟩ 1], [.core ⟨1, 0⟩ 1]]⟩

/-- The corridor leads from the far end to the middle. The source at the near end reaches its exit
through the middle, so nothing is left of it, and the far end forwards nowhere. -/
def crossedDemand : Demand := { partition := ⟨0⟩, source := 0, targets := [1] }

/-- The tree of the second source leads on to the far end, where nothing is left to do and no entry
is made. What the middle chip sends there counts as delivered to a device on its eastern link, which
is no sink. -/
theorem crossed_reached : (crossedGraph.route lineMesh defaultRadius crossedDemand).map
      (List.map fun n => (n.net.sinks, n.reached lineMesh)) =
    .ok [([.core ⟨1, 0⟩ 1], [.core ⟨1, 0⟩ 1]),
      ([.core ⟨1, 0⟩ 1], [.core ⟨1, 0⟩ 1, .device ⟨1, 0⟩ .east])] := by
  decide +kernel

/-- The two nets of the demand, and what they reach. -/
theorem crossed_nets : ∃ first second,
    crossedGraph.route lineMesh defaultRadius crossedDemand = .ok [first, second] ∧
      (first.net.sinks = [.core ⟨1, 0⟩ 1] ∧ first.reached lineMesh = [.core ⟨1, 0⟩ 1]) ∧
      (second.net.sinks = [.core ⟨1, 0⟩ 1] ∧
        second.reached lineMesh = [.core ⟨1, 0⟩ 1, .device ⟨1, 0⟩ .east]) := by
  have h := crossed_reached
  cases hroute : crossedGraph.route lineMesh defaultRadius crossedDemand with
  | error e =>
      rw [hroute] at h
      contradiction
  | ok nets =>
      rw [hroute] at h
      have h := Except.ok.inj h
      obtain ⟨first, rest, rfl, hfirst, hrest⟩ := List.map_eq_cons_iff.1 h
      obtain ⟨second, rest, rfl, hsecond, hrest⟩ := List.map_eq_cons_iff.1 hrest
      obtain rfl := List.map_eq_nil_iff.1 hrest
      exact ⟨first, second, rfl, Prod.mk.inj hfirst, Prod.mk.inj hsecond⟩

/-- The first net of the demand has a tree without dead ends, the second has not. -/
theorem crossed_noDeadEnd : ∃ first second,
    crossedGraph.route lineMesh defaultRadius crossedDemand = .ok [first, second] ∧
      first.tree.NoDeadEnd ∧ ¬ second.tree.NoDeadEnd := by
  obtain ⟨first, second, h, ⟨hsinks, hreached⟩, hsinks', hreached'⟩ := crossed_nets
  have hdevices : ∀ endpoints ∈ crossedGraph.entities, ∀ c link,
      Endpoint.device c link ∈ endpoints → lineMesh.isLink c link = false := by
    intro endpoints hmem c link hdevice
    rcases List.mem_pair.1 hmem with rfl | rfl <;> simp at hdevice
  obtain ⟨-, -, -, -, hexact⟩ := route_exact_iff lineMesh crossedGraph defaultRadius crossedDemand
    _ h hdevices first (List.mem_cons_self ..) (by simp [hsinks])
  obtain ⟨-, -, -, -, hexact'⟩ := route_exact_iff lineMesh crossedGraph defaultRadius crossedDemand
    _ h hdevices second (by simp) (by simp [hsinks'])
  refine ⟨first, second, h, hexact.1 fun e => by rw [hreached, hsinks], fun hends => ?_⟩
  have := (hexact'.2 hends (.device ⟨1, 0⟩ .east)).1 (by simp [hreached'])
  simp [hsinks'] at this

/-- A net of the demand reaches a device although the graph has none. -/
theorem crossed_phantom :
    (∀ endpoints ∈ crossedGraph.entities, ∀ e ∈ endpoints,
      lineMesh.contains e.chip = true ∧ e.isCore = true) ∧
    ∃ nets n, crossedGraph.route lineMesh defaultRadius crossedDemand = .ok nets ∧ n ∈ nets ∧
      n.net.sinks = [.core ⟨1, 0⟩ 1] ∧ .device ⟨1, 0⟩ .east ∈ n.reached lineMesh := by
  obtain ⟨first, second, h, -, hsinks, hreached⟩ := crossed_nets
  exact ⟨by decide +kernel, _, second, h, by simp, hsinks, by simp [hreached]⟩

end EntityGraph

end Multicast
