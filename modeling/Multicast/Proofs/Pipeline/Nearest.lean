import Multicast.Pipeline.Route
import Multicast.Proofs.Growth.Spread
import Multicast.Proofs.Repair.Repair
import Multicast.Proofs.Table.Delivery

/-!
# `Multicast.Proofs.Pipeline.Nearest`: nets with trees grown sink by sink

The tree of a net is grown and repaired. What comes out spans the net and has no dead
ends (`Fabric.spans_of_routeNet`), so its entries deliver to the sinks and nowhere else.
A run merges the entries of one net after another; merging keeps the ways out of the
entries there were, and so the tables carry every net routed so far (`Run.Serves.keep`,
`Run.nearest_serves`). `Machine.routeNets_exact` reads this off the tables a run ends
with.
-/

set_option autoImplicit false

namespace Multicast

namespace Fabric

variable {f : Fabric} {net : Net} {radius : Nat} {routed : RoutedNet}

/-- A routed net is the repaired tree of what was grown. -/
theorem routeNet_eq_ok : f.routeNet net radius = .ok routed ↔
    ∃ g r, f.spreadNet net radius = .ok g ∧ f.repair g.tree = .ok r ∧
      routed = ⟨net, r.tree, r.report⟩ := by
  simp only [routeNet, bind_eq_ok, pure, Except.pure, Except.ok.injEq, @eq_comm _ routed,
    exists_and_left]

/-- A routed net has a sound tree, repaired from one grown for it. -/
theorem sound_of_routeNet (h : f.routeNet net radius = .ok routed) :
    ∃ (g : Growth) (r : Repaired), net.Grown g ∧ r.Sound f g.tree ∧
      routed = ⟨net, r.tree, r.report⟩ := by
  obtain ⟨g, r, hg, hr, rfl⟩ := routeNet_eq_ok.1 h
  obtain ⟨hon, hsource⟩ := on_of_spreadNet hg
  obtain ⟨g', hg', hgrown⟩ := spreadNet_spec hon hsource radius
  obtain rfl := Except.ok.inj (hg.symm.trans hg')
  exact ⟨g, r, hgrown, sound_of_repair hgrown.sound.isProper hr, rfl⟩

/-- A routed net names the net it is for. -/
theorem net_of_routeNet (h : f.routeNet net radius = .ok routed) : routed.net = net := by
  obtain ⟨_, _, -, -, rfl⟩ := routeNet_eq_ok.1 h
  rfl

/-- The trees that nets get, each by itself. -/
def Routes (f : Fabric) (radius : Nat) (nets : List Net) (routed : List RoutedNet) : Prop :=
  routed.map (·.net) = nets ∧ ∀ n ∈ routed, f.routeNet n.net radius = .ok n

/-- A routed net has a tree that spans it and has no dead ends. -/
theorem spans_of_routeNet (h : f.routeNet net radius = .ok routed) (hne : net.sinks ≠ [])
    (hdevices : ∀ c d, .device c d ∈ net.sinks → f.isLink c d = false) :
    routed.tree.Spans f net.source.chip net.sinks ∧ routed.tree.NoDeadEnd := by
  obtain ⟨g, r, hgrown, hsound, rfl⟩ := sound_of_routeNet h
  refine ⟨.of_named hsound.proper ?_ hsound.works ?_ (hdevices _ _) hne,
    hsound.noDeadEnd hgrown.noDeadEnd⟩
  · exact hsound.root_chip.trans hgrown.root_chip
  · intro x
    rw [hsound.terminals.mem_iff, hgrown.sound.mem_terminals hgrown.sinks]

end Fabric

/-- No chip has an entry for a partition. -/
def Tables.Vacant (t : Tables) (p : Partition) : Prop :=
  ∀ c, t.get? ⟨c, p⟩ = none

namespace Run

variable {ν : Type} {f : Fabric} {o : Options ν} {r r' : Run} {nets : List Net} {net : Net}
  {n : RoutedNet}

/-- An attempt succeeds with what the thing attempted succeeds with. -/
theorem attempt_eq_ok {α : Type} {x : Except RouteError α} {a : α} :
    r.attempt x = .ok a ↔ x = .ok a := by
  cases x <;> simp [attempt]

/-- A net recorded has its entries in the tables. -/
theorem addTree_of_record (h : r.record n = .ok r') :
    r.tables.addTree n.net.partition n.tree (some n.net.source) = (r'.tables, none) := by
  unfold record at h
  split at h
  · next tables htables =>
    rw [← Except.ok.inj h, htables]
  · contradiction

/-- A proper tree can be recorded under a partition without entries, and others stay as they
are. -/
theorem record_vacant (hproper : n.tree.IsProper) (hvacant : r.tables.Vacant n.net.partition) :
    ∃ next, r.record n = .ok next ∧
      ∀ p, p ≠ n.net.partition → r.tables.Vacant p → next.tables.Vacant p := by
  obtain ⟨tables, htables⟩ := Tables.addEntries_fresh (p := n.net.partition)
    (hproper.nodup_entries (some n.net.source)) fun x _ => hvacant x.chip
  refine ⟨⟨tables, r.log.emitAll (Report.ofRepair n.net.partition n.report), r.routed + 1⟩, ?_,
    fun p hp hother c => ?_⟩
  · simp only [record, Tables.addTree, htables]
  · obtain ⟨-, -, hkept⟩ := Tables.addEntries_spec htables
    exact (hkept ⟨c, p⟩ fun x _ heq => hp (Slot.mk.inj heq).2).trans (hother c)

/-- The tables of a run carry a tree without dead ends that spans a net. -/
def Serves (f : Fabric) (r : Run) (net : Net) : Prop :=
  ∃ t, t.Spans f net.source.chip net.sinks ∧ t.NoDeadEnd ∧ r.tables.Carries net.partition t

/-- A net served stays served while entries come in. -/
theorem Serves.keep (h : r.Serves f net) (hkeeps : r.tables.Keeps r'.tables) :
    r'.Serves f net := by
  obtain ⟨t, hspans, hends, hcarries⟩ := h
  exact ⟨t, hspans, hends, hcarries.keep hkeeps fun _ => hspans.not_leaf_of_noDeadEnd hends⟩

/-- A net is served once a tree without dead ends that spans it is recorded. -/
theorem serves_of_spans (hspans : n.tree.Spans f n.net.source.chip n.net.sinks)
    (hends : n.tree.NoDeadEnd) (h : r.record n = .ok r') : r'.Serves f n.net := by
  refine ⟨_, hspans, hends, hspans.carries (addTree_of_record h) fun m c hm _ hleaf => ?_⟩
  -- Without leaves it does not matter which entries the tables had.
  rw [hspans.not_leaf_of_noDeadEnd hends hm] at hleaf
  contradiction

/-- Nets recorded keep the ways out of the entries there are, and those with a tree without dead
ends that spans them are served. -/
theorem recordAll_serves {routed : List RoutedNet} (h : r.recordAll routed = .ok r') :
    r.tables.Keeps r'.tables ∧ ∀ n ∈ routed, n.tree.Spans f n.net.source.chip n.net.sinks →
      n.tree.NoDeadEnd → r'.Serves f n.net := by
  -- On the nets still to be recorded, from any run: what comes later keeps what is served.
  induction routed generalizing r with
  | nil =>
      obtain rfl := Except.ok.inj h
      exact ⟨.refl _, by simp⟩
  | cons first rest ih =>
      obtain ⟨next, hrecord, hrest⟩ := bind_eq_ok.1 h
      obtain ⟨hkeeps, hserves⟩ := ih hrest
      have hadded := (Tables.addEntries_spec (addTree_of_record hrecord)).1
      refine ⟨hadded.trans hkeeps, List.forall_mem_cons.2 ⟨fun hspans hends => ?_, hserves⟩⟩
      exact (serves_of_spans hspans hends hrecord).keep hkeeps

/-- One net of a run is routed and recorded; then the run goes on. -/
theorem nearest_cons_eq_ok {rest : List Net} :
    nearest f o r (net :: rest) = .ok r' ↔ o.checkCancelled = .ok () ∧
      ∃ n next, f.routeNet net o.radius = .ok n ∧ r.record n = .ok next ∧
        nearest f o next rest = .ok r' := by
  simp only [nearest, bind_eq_ok, attempt_eq_ok]
  constructor
  · rintro ⟨⟨⟩, hcheck, n, hn, next, hnext, hrest⟩
    exact ⟨hcheck, n, next, hn, hnext, hrest⟩
  · rintro ⟨hcheck, n, next, hn, hnext, hrest⟩
    exact ⟨_, hcheck, n, hn, next, hnext, hrest⟩

/-- A run that succeeds records the trees that its nets get. -/
theorem recorded_of_nearest (h : nearest f o r nets = .ok r') :
    ∃ routed, f.Routes o.radius nets routed ∧ r.recordAll routed = .ok r' := by
  induction nets generalizing r with
  | nil => exact ⟨[], ⟨rfl, by simp⟩, h⟩
  | cons net rest ih =>
      obtain ⟨-, n, next, hn, hnext, hrest⟩ := nearest_cons_eq_ok.1 h
      obtain ⟨routed, ⟨hnets, hroutes⟩, hrecord⟩ := ih hrest
      have hnet := Fabric.net_of_routeNet hn
      refine ⟨n :: routed, ⟨congr (congrArg List.cons hnet) hnets, ?_⟩, ?_⟩
      · exact List.forall_mem_cons.2 ⟨hnet ▸ hn, hroutes⟩
      · rw [recordAll, hnext]
        exact hrecord

/-- A run keeps the ways out of the entries there are, and serves every net with sinks. -/
theorem nearest_serves (h : nearest f o r nets = .ok r') : r.tables.Keeps r'.tables ∧
    ∀ net ∈ nets, net.sinks ≠ [] → (∀ c d, .device c d ∈ net.sinks → f.isLink c d = false) →
      r'.Serves f net := by
  obtain ⟨routed, ⟨rfl, hroutes⟩, hrecord⟩ := recorded_of_nearest h
  obtain ⟨hkeeps, hserves⟩ := recordAll_serves (f := f) hrecord
  refine ⟨hkeeps, List.forall_mem_map.2 fun n hn hne hdevices => ?_⟩
  obtain ⟨hspans, hends⟩ := Fabric.spans_of_routeNet (hroutes n hn) hne hdevices
  exact hserves n hn hspans hends

/-- The tables a finished run returns are those it has come to. -/
theorem finish_eq_ok {capacity : Chip → Nat} {x : Except Stopped Run} {tables : Tables} :
    (finish capacity x).result = .ok tables ↔ ∃ r, x = .ok r ∧ r.tables = tables := by
  cases x <;> simp [finish]

end Run

namespace Machine

variable {ν : Type} [Quantity ν]

/-- The tables of a run deliver every net to its sinks and nowhere else, once each. On the way
each chip is sent to once, and the source never. -/
theorem routeNets_exact (m : Machine ν) (o : Options ν) (nets : List Net) (tables : Tables)
    (halgorithm : o.algorithm = .nearest) (h : (m.routeNets nets o).result = .ok tables)
    (net : Net) (hnet : net ∈ nets) (hne : net.sinks ≠ [])
    (hdevices : ∀ c d, .device c d ∈ net.sinks → m.isLink c d = false) :
    let visited := tables.visited m.toFabric net.partition net.source.chip
    (∀ e, e ∈ tables.reached m.toFabric net.partition net.source ↔ e ∈ net.sinks) ∧
      (visited.flatMap (tables.deliveries m.toFabric net.partition)).Nodup ∧
      (∀ c ∈ visited, c ≠ net.source.chip → ∃! x : Chip × Direction,
        x.1 ∈ visited ∧ (x.2, c) ∈ tables.onward m.toFabric net.partition x.1) ∧
      ∀ c ∈ visited, ∀ d,
        (d, net.source.chip) ∉ tables.onward m.toFabric net.partition c := by
  rw [routeNets, halgorithm] at h
  obtain ⟨r, hr, rfl⟩ := Run.finish_eq_ok.1 h
  obtain ⟨t, hspans, hends, hcarries⟩ := (Run.nearest_serves hr).2 net hnet hne hdevices
  exact ⟨fun e => hspans.reached_iff_of_noDeadEnd hcarries hends net.source rfl,
    hspans.nodup_deliveries hcarries, fun c => hspans.sent_once hcarries,
    fun c hc d => hspans.not_sent_back hcarries hc⟩

/-- A mesh with a dead chip in the middle of its first row. -/
def pierced : Machine Float :=
  .standard ((Fabric.intact { width := 3, height := 2, wraps := false }).killChip ⟨1, 0⟩)

/-- Two nets of one partition that share their sinks; the tree of the first is grown through the
dead chip, and repaired it runs over the source of the second. -/
def piercedNets : List Net :=
  let sinks := [.core ⟨2, 0⟩ 1, .device ⟨2, 1⟩ .east]
  [{ partition := ⟨0⟩, source := .core ⟨0, 0⟩ 1, sinks },
    { partition := ⟨0⟩, source := .core ⟨1, 1⟩ 2, sinks }]

/-- The two nets share sinks and part of their way, one of their trees needs a repair, and both
arrive at their sinks only. The run is evaluated as far as that it succeeds; what its tables do is
said by the theorem. -/
theorem pierced_exact : ∃ tables, (pierced.routeNets piercedNets .standard).result = .ok tables ∧
    ∀ net ∈ piercedNets, ∀ e,
      e ∈ tables.reached pierced.toFabric net.partition net.source ↔ e ∈ net.sinks := by
  have hok : (pierced.routeNets piercedNets .standard).result.isOk = true := by decide +kernel
  cases h : (pierced.routeNets piercedNets .standard).result with
  | error e =>
      rw [h] at hok
      contradiction
  | ok tables =>
      refine ⟨tables, rfl, fun net hnet => ?_⟩
      have hne : net.sinks ≠ [] := by
        rcases List.mem_pair.1 hnet with rfl | rfl <;> exact List.cons_ne_nil _ _
      refine (routeNets_exact pierced .standard piercedNets tables rfl h net hnet hne ?_).1
      intro c d hdevice
      have hrim : Endpoint.device c d = .device ⟨2, 1⟩ .east := by
        rcases List.mem_pair.1 hnet with rfl | rfl <;> simpa using hdevice
      obtain ⟨rfl, rfl⟩ := Endpoint.device.inj hrim
      decide +kernel

end Machine

end Multicast
