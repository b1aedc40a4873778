import Multicast.Proofs.Cost.Commit
import Multicast.Proofs.Cost.PathTree
import Multicast.Proofs.Pipeline.Nearest

/-!
# `Multicast.Proofs.Pipeline.Cheapest`: nets over cheapest paths

The paths a cost router gives are walks over working links that come back to no chip, and they
make a tree, whatever the costs are and however they compare. The tree of a net therefore spans
it and has no dead ends (`CostRouter.spans_of_netTree`). Committing a tree changes costs only, so
the next net is routed on the same machine, and as for grown trees the tables serve every net
routed so far (`Run.cheapest_serves`).
-/

set_option autoImplicit false

namespace Multicast

/-- A tree of a net over working links spans the net. -/
theorem Net.Grown.spans {net : Net} {g : Growth} {f : Fabric} (h : net.Grown g)
    (hworks : g.tree.EdgesWork f) (hne : net.sinks ≠ [])
    (hdevices : ∀ c d, .device c d ∈ net.sinks → f.isLink c d = false) :
    g.tree.Spans f net.source.chip net.sinks :=
  .of_named h.sound.isProper h.root_chip hworks (fun _ => h.sound.mem_terminals h.sinks)
    (hdevices _ _) hne

namespace CostRouter

variable {ν : Type} [Quantity ν] {router used : CostRouter ν} {net : Net} {t : RouteTree}

/-- A call that succeeds gives the tree of the net and commits it. -/
theorem routeNet_eq_ok : router.routeNet net = .ok (t, used) ↔
    router.netTree net = .ok t ∧ used = router.commit t := by
  simp only [routeNet, bind_eq_ok, pure, Except.pure, Except.ok.injEq, Prod.mk.injEq]
  constructor
  · rintro ⟨t', h, rfl, rfl⟩
    exact ⟨h, rfl⟩
  · rintro ⟨h, rfl⟩
    exact ⟨t, h, rfl, rfl⟩

/-- Nets have the trees that a router gives them one after another, each tree committed before the
next net. -/
def RoutesInTurn : CostRouter ν → List RoutedNet → Prop
  | _, [] => True
  | router, n :: rest =>
    router.netTree n.net = .ok n.tree ∧ RoutesInTurn (router.commit n.tree) rest

/-- Each net of the row has its tree from some router over the same machine: from the first, after
the commits of the nets before it. That is enough for what does not depend on the state. -/
theorem RoutesInTurn.exists_router {routed : List RoutedNet} (h : router.RoutesInTurn routed) :
    ∀ n ∈ routed, ∃ router' : CostRouter ν, router'.machine = router.machine ∧
      router'.netTree n.net = .ok n.tree := by
  induction routed generalizing router with
  | nil => simp
  | cons n rest ih =>
      refine List.forall_mem_cons.2 ⟨⟨router, rfl, h.1⟩, ?_⟩
      rw [← router.commit_machine n.tree]
      exact ih h.2

/-- The tree of a net over cheapest paths spans it and has no dead ends. -/
theorem spans_of_netTree (h : router.netTree net = .ok t) (hne : net.sinks ≠ [])
    (hdevices : ∀ c d, .device c d ∈ net.sinks → router.machine.isLink c d = false) :
    t.Spans router.machine.toFabric net.source.chip net.sinks ∧ t.NoDeadEnd := by
  obtain ⟨g, rfl, hgrown, hworks⟩ := netTree_spec h
  exact ⟨hgrown.spans hworks hne hdevices, hgrown.noDeadEnd⟩

end CostRouter

namespace Run

variable {ν : Type} [Quantity ν] {m : Machine ν} {o : Options ν} {router : CostRouter ν}
  {r r' : Run} {net : Net} {nets : List Net}

/-- One net of a run is routed, committed and recorded; then the run goes on. -/
theorem cheapest_cons_eq_ok {rest : List Net} :
    cheapest o router r (net :: rest) = .ok r' ↔ o.checkCancelled = .ok () ∧
      ∃ tree next, router.netTree net = .ok tree ∧ r.record ⟨net, tree, .clean⟩ = .ok next ∧
        cheapest o (router.commit tree) next rest = .ok r' := by
  simp only [cheapest, bind_eq_ok, attempt_eq_ok]
  constructor
  · rintro ⟨⟨⟩, hcheck, ⟨tree, used⟩, hrouted, next, hnext, hrest⟩
    obtain ⟨htree, rfl⟩ := CostRouter.routeNet_eq_ok.1 hrouted
    exact ⟨hcheck, tree, next, htree, hnext, hrest⟩
  · rintro ⟨hcheck, tree, next, htree, hnext, hrest⟩
    exact ⟨_, hcheck, _, CostRouter.routeNet_eq_ok.2 ⟨htree, rfl⟩, next, hnext, hrest⟩

/-- A run that succeeds records the trees that its router gives the nets. -/
theorem recorded_of_cheapest (h : cheapest o router r nets = .ok r') :
    ∃ routed, routed.map (·.net) = nets ∧ r.recordAll routed = .ok r' ∧
      router.RoutesInTurn routed := by
  induction nets generalizing r router with
  | nil => exact ⟨[], rfl, h, trivial⟩
  | cons net rest ih =>
      obtain ⟨-, tree, next, htree, hnext, hrest⟩ := cheapest_cons_eq_ok.1 h
      obtain ⟨routed, hnets, hrecord, htrees⟩ := ih hrest
      refine ⟨⟨net, tree, .clean⟩ :: routed, congrArg (net :: ·) hnets, ?_, htree, htrees⟩
      rw [recordAll, hnext]
      exact hrecord

/-- A run serves every net with sinks. -/
theorem cheapest_serves (hmachine : router.machine = m) (h : cheapest o router r nets = .ok r') :
    ∀ net ∈ nets, net.sinks ≠ [] →
      (∀ c d, .device c d ∈ net.sinks → m.isLink c d = false) → r'.Serves m.toFabric net := by
  obtain ⟨routed, rfl, hrecord, hturns⟩ := recorded_of_cheapest h
  refine List.forall_mem_map.2 fun n hn hne hdevices => ?_
  obtain ⟨router', hsame, htree⟩ := hturns.exists_router n hn
  obtain rfl := hsame.trans hmachine
  obtain ⟨hspans, hends⟩ := CostRouter.spans_of_netTree htree hne hdevices
  exact (recordAll_serves hrecord).2 n hn hspans hends

end Run

namespace Machine

variable {ν : Type} [Quantity ν]

/-- However costs compare: the paths that a router of a machine gives are walks over working links
from the source to the destinations that come back to no chip, and they make a tree; and the
tables of a run over such paths deliver every net to its sinks and nowhere else. -/
theorem cheapest_exact (m : Machine ν) :
    (∀ (router : CostRouter ν) source destinations p, router.machine = m →
      router.paths source destinations = .ok p →
      p.paths.map (·.1) = destinations ∧
        (∀ path ∈ p.paths, m.IsWalk source path.2 path.1 ∧
          (source :: path.2.map (·.chip)).Nodup) ∧
        ∃ t, p.toTree = .ok t) ∧
    ∀ (o : Options ν) nets tables, o.algorithm = .cheapest →
      (m.routeNets nets o).result = .ok tables → ∀ net ∈ nets, net.sinks ≠ [] →
      (∀ c d, .device c d ∈ net.sinks → m.isLink c d = false) →
      ∀ e, e ∈ tables.reached m.toFabric net.partition net.source ↔ e ∈ net.sinks := by
  constructor
  · rintro router source destinations p rfl hp
    obtain ⟨hstart, hmap, before, hsource, hlinks, hfollows⟩ := CostRouter.paths_spec hp
    obtain ⟨g, hg, -⟩ := CostPaths.grow_spec hstart hsource hfollows
    exact ⟨hmap, fun path hpath => ⟨(hfollows path hpath).isWalk hlinks,
      (hfollows path hpath).nodup hsource⟩, g.tree, CostPaths.toTree_eq_ok.2 ⟨g, hg, rfl⟩⟩
  · intro o nets tables halgorithm h net hnet hne hdevices e
    rw [routeNets, halgorithm] at h
    obtain ⟨r, hr, rfl⟩ := Run.finish_eq_ok.1 h
    obtain ⟨router, hrouter, hr⟩ := bind_eq_ok.1 hr
    have hmachine := CostRouter.machine_of_create (Run.attempt_eq_ok.1 hrouter)
    obtain ⟨t, hspans, hends, hcarries⟩ := Run.cheapest_serves hmachine hr net hnet hne hdevices
    exact hspans.reached_iff_of_noDeadEnd hcarries hends net.source rfl

/-- A torus with exact capacities, on which one link is dead in one direction only. -/
def narrowTorus : Machine Rat :=
  .uniform ((Fabric.intact { width := 3, height := 2, wraps := true }).killLinkOneWay ⟨0, 0⟩ .east)
    2 2

/-- Cheapest paths that keep clear of full tables and of links in use. -/
def pressed : Options Rat :=
  { (Options.standard : Options Rat) with
    algorithm := .cheapest
    weights := { k := 1, l := 1, m := 1, perRoute := 1 } }

/-- Two nets of one partition to the same sinks. -/
def narrowNets : List Net :=
  let sinks := [.core ⟨1, 1⟩ 1, .core ⟨2, 1⟩ 2]
  [{ partition := ⟨0⟩, source := .core ⟨0, 0⟩ 1, sinks },
    { partition := ⟨0⟩, source := .core ⟨1, 0⟩ 1, sinks }]

/-- On a torus with a link dead in one direction, two nets of one partition under the full cost
model arrive at their common sinks. The paths of the first are walks over live links, hence go round
the dead direction. -/
theorem narrow_exact :
    (∃ router p t, CostRouter.create narrowTorus pressed.weights = .ok router ∧
      router.paths ⟨0, 0⟩ [⟨1, 1⟩, ⟨2, 1⟩] = .ok p ∧ p.toTree = .ok t ∧
      ∀ path ∈ p.paths, narrowTorus.IsWalk ⟨0, 0⟩ path.2 path.1) ∧
    ∃ tables, (narrowTorus.routeNets narrowNets pressed).result = .ok tables ∧
      ∀ net ∈ narrowNets, ∀ e,
        e ∈ tables.reached narrowTorus.toFabric net.partition net.source ↔ e ∈ net.sinks := by
  obtain ⟨hpaths, hexact⟩ := cheapest_exact narrowTorus
  constructor
  · obtain ⟨router, hrouter⟩ := exists_of_isOk
      (show (CostRouter.create narrowTorus pressed.weights).isOk = true by decide +kernel)
    have hok : ((CostRouter.create narrowTorus pressed.weights).bind fun router =>
        router.paths ⟨0, 0⟩ [⟨1, 1⟩, ⟨2, 1⟩]).isOk = true := by decide +kernel
    rw [hrouter] at hok
    obtain ⟨p, hp⟩ := exists_of_isOk hok
    obtain ⟨-, hwalks, t, ht⟩ := hpaths router _ _ p (CostRouter.machine_of_create hrouter) hp
    exact ⟨router, p, t, hrouter, hp, ht, fun path hpath => (hwalks path hpath).1⟩
  · obtain ⟨tables, h⟩ := exists_of_isOk
      (show (narrowTorus.routeNets narrowNets pressed).result.isOk = true by decide +kernel)
    refine ⟨tables, h, fun net hnet => hexact pressed narrowNets tables rfl h net hnet ?_ ?_⟩
    · rcases List.mem_pair.1 hnet with rfl | rfl <;> exact List.cons_ne_nil _ _
    · intro c d hdevice
      rcases List.mem_pair.1 hnet with rfl | rfl <;> simp at hdevice

end Machine

end Multicast
