import Multicast.Proofs.Entity.Halts
import Multicast.Proofs.Pipeline.Nearest
import Multicast.Proofs.Traffic.Partition

/-!
# `Multicast.Proofs.Pipeline.Demands`: demands under partitions set aside for them

A demand uses one partition for each core of its source, in order (`partitions_of_route`). When
the demands are given blocks from one allocator, of as many partitions as each of them uses, all
blocks together are one block (`flatMap_partitions`), so no partition is used twice. Then every
net finds its partition without entries (`Tables.Vacant`), its own entries are on different
chips, and nothing can disagree (`Run.demands_neverConflict`).
-/

set_option autoImplicit false

namespace Multicast

namespace EntityGraph

variable {g : EntityGraph} {f : Fabric} {radius : Nat} {d : Demand} {legs : List Leg}
  {p : Partition} {nets : List RoutedNet}

/-- The partitions a demand uses: one for each core of its source, from its own on. -/
def partitions (g : EntityGraph) (d : Demand) : List Partition :=
  match g.coreCount d.source with
  | .ok count => d.partition.block count
  | .error _ => []

/-- The routes of a demand take up a block of partitions, one after the other from the demand's own
on, without a gap. -/
theorem partitions_of_routeSources {sources : List Endpoint}
    (h : g.routeSources f radius d legs p sources = .ok nets) :
    nets.map (·.net.partition) = p.block sources.length := by
  induction sources generalizing p nets with
  | nil =>
      obtain rfl := Except.ok.inj h
      rfl
  | cons source rest ih =>
      obtain ⟨first, hfirst, h⟩ := bind_eq_ok.1 h
      obtain ⟨others, hothers, h⟩ := bind_eq_ok.1 h
      obtain rfl := Except.ok.inj h
      obtain ⟨_, _, _, -, rfl, -⟩ := routeSource_spec hfirst
      rw [List.map_cons, ih hothers, List.length_cons, Partition.block_succ]
      rfl

/-- The nets of a demand are for the partitions that it uses. -/
theorem partitions_of_route (h : g.route f radius d = .ok nets) :
    nets.map (·.net.partition) = g.partitions d := by
  obtain ⟨_, -, h⟩ := bind_eq_ok.1 h
  obtain ⟨sources, hsources, h⟩ := bind_eq_ok.1 h
  have hcount : g.coreCount d.source = .ok sources.length := by
    rw [coreCount, hsources]
    rfl
  rw [partitions, hcount]
  split at h
  · contradiction
  · exact partitions_of_routeSources h

/-- The trees of a demand are proper. -/
theorem isProper_of_route (h : g.route f radius d = .ok nets) : ∀ n ∈ nets, n.tree.IsProper := by
  intro n hn
  obtain ⟨legs, source, p, hsource⟩ := exists_routeSource h hn
  obtain ⟨_, _, r, -, rfl, hsound, -, -, hr⟩ := routeSource_spec hsource
  exact (Fabric.sound_of_repair hsound.isProper hr).proper

/-- Blocks set aside one after another for demands make one block. -/
theorem flatMap_partitions {demands : List Demand} {counts : List Nat} {a : Partition.Allocator}
    (hcounts : demands.map (fun d => g.coreCount d.source) = counts.map .ok)
    (hblocks : demands.map (·.partition) = a.blocks (counts.map UInt32.ofNat)) :
    demands.flatMap g.partitions = a.next.block counts.sum := by
  induction counts generalizing demands a with
  | nil =>
      obtain rfl := List.map_eq_nil_iff.1 hcounts
      rfl
  | cons count rest ih =>
      obtain ⟨d, others, rfl, hd, hothers⟩ := List.map_eq_cons_iff.1 hcounts
      obtain ⟨hpartition, hrest⟩ := List.cons.inj hblocks
      have hown : g.partitions d = a.next.block count := by
        rw [partitions, hd]
        exact congrArg (Partition.block · count) hpartition
      rw [List.flatMap_cons, hown, ih hothers hrest, List.sum_cons, Partition.block_add]
      rfl

end EntityGraph

/-- The check for cancellation has one error to give. -/
theorem Options.checkCancelled_error {ν : Type} {o : Options ν} {e : RouteError}
    (h : o.checkCancelled = .error e) : e = .cancelled := by
  unfold checkCancelled at h
  split at h
  · exact (Except.error.inj h).symm
  · contradiction

namespace Run

variable {ν : Type} {f : Fabric} {g : EntityGraph} {o : Options ν} {r : Run}
  {nets : List RoutedNet} {demands : List Demand}

/-- Nets of different partitions can be recorded if there are no entries for these. By induction on
the nets. Each writes for its own partition only, so that those of the nets to come stay vacant. -/
theorem recordAll_vacant (hproper : ∀ n ∈ nets, n.tree.IsProper)
    (hnodup : (nets.map (·.net.partition)).Nodup)
    (hvacant : ∀ p ∈ nets.map (·.net.partition), r.tables.Vacant p) :
    ∃ next, r.recordAll nets = .ok next ∧
      ∀ p, p ∉ nets.map (·.net.partition) → r.tables.Vacant p → next.tables.Vacant p := by
  induction nets generalizing r with
  | nil => exact ⟨r, rfl, fun _ _ => id⟩
  | cons n rest ih =>
      obtain ⟨hn, hrest⟩ := List.forall_mem_cons.1 hproper
      obtain ⟨hv, hvs⟩ := List.forall_mem_cons.1 hvacant
      obtain ⟨hnew, hnodup⟩ := List.nodup_cons.1 hnodup
      obtain ⟨next, hnext, hkept⟩ := record_vacant hn hv
      obtain ⟨last, hlast, hkept'⟩ := ih hrest hnodup fun p hp =>
        hkept p (ne_of_mem_of_not_mem hp hnew) (hvs p hp)
      refine ⟨last, ?_, fun p hp hother => ?_⟩
      · rw [recordAll, hnext]
        exact hlast
      · exact hkept' p (List.not_mem_of_not_mem_cons hp)
          (hkept p (List.ne_of_not_mem_cons hp) hother)

/-- A stopped attempt carries the error of what was attempted. -/
theorem error_of_attempt {α : Type} {x : Except RouteError α} {s : Stopped}
    (h : r.attempt x = .error s) : x = .error s.error := by
  cases x with
  | ok a => contradiction
  | error e => rw [← Except.error.inj h]

/-- What may end a run at a demand or behind it. -/
theorem demands_cons_eq_error {d : Demand} {s : Stopped}
    (h : Run.demands f g o r (d :: demands) = .error s) :
    o.checkCancelled = .error s.error ∨ g.route f o.radius d = .error s.error ∨
      ∃ nets, g.route f o.radius d = .ok nets ∧ (r.recordAll nets = .error s ∨
        ∃ next, r.recordAll nets = .ok next ∧ Run.demands f g o next demands = .error s) := by
  rcases bind_eq_error.1 h with hstop | ⟨_, -, h⟩
  · exact .inl (error_of_attempt hstop)
  · rcases bind_eq_error.1 h with hstop | ⟨nets, hnets, h⟩
    · exact .inr (.inl (error_of_attempt hstop))
    · exact .inr (.inr ⟨nets, attempt_eq_ok.1 hnets, bind_eq_error.1 h⟩)

/-- A run of demands that use no partition twice, nor one with entries, does not end with a
conflict. By induction on the demands. The nets of a demand have the partitions of its block, and
these are neither among those of the demands before it nor repeated within the block. -/
theorem demands_neverConflict (hnodup : (demands.flatMap g.partitions).Nodup)
    (hvacant : ∀ p ∈ demands.flatMap g.partitions, r.tables.Vacant p) {s : Stopped}
    (h : Run.demands f g o r demands = .error s) (c : Chip) (p : Partition) :
    s.error ≠ .conflict c p := by
  -- On the demands still to be routed: the partitions that they use stay without entries.
  induction demands generalizing r with
  | nil => contradiction
  | cons d rest ih =>
      rw [List.flatMap_cons] at hnodup hvacant
      obtain ⟨hown, hothers, hdisjoint⟩ := List.nodup_append.1 hnodup
      rcases demands_cons_eq_error h with hstop | hstop | ⟨nets, hroute, h⟩
      · rw [Options.checkCancelled_error hstop]
        nofun
      · have hhalts := EntityGraph.route_halts g f o.radius d
        rw [hstop] at hhalts
        exact hhalts.ne_conflict c p
      · have hpartitions := EntityGraph.partitions_of_route hroute
        obtain ⟨next, hnext, hkept⟩ := recordAll_vacant (r := r)
          (EntityGraph.isProper_of_route hroute) (hpartitions ▸ hown) fun q hq =>
            hvacant q (List.mem_append_left _ (hpartitions ▸ hq))
        rw [hnext] at h
        rcases h with hstop | ⟨_, heq, h⟩
        · contradiction
        · obtain rfl := Except.ok.inj heq
          refine ih hothers (fun q hq => hkept q ?_ (hvacant q (List.mem_append_right _ hq))) h
          rw [hpartitions]
          exact fun hmem => hdisjoint q hmem q hq rfl

end Run

namespace Machine

variable {ν : Type}

/-- Demands that are given blocks of partitions from one allocator, one after another and each of
as many as its source has cores, use no partition twice as long as there are no more than all
numbers, wherever the allocator starts; and routing them does not end with a conflict. -/
theorem routeDemands_no_conflict (g : EntityGraph) (demands : List Demand) (counts : List Nat)
    (a : Partition.Allocator)
    (hcounts : demands.map (fun d => g.coreCount d.source) = counts.map .ok)
    (hblocks : demands.map (·.partition) = a.blocks (counts.map UInt32.ofNat))
    (hsum : counts.sum ≤ 2 ^ 32) :
    (demands.flatMap g.partitions).Nodup ∧
    (∀ f radius, ∀ d ∈ demands, ∀ nets, g.route f radius d = .ok nets →
      nets.map (·.net.partition) = g.partitions d) ∧
    ∀ (m : Machine ν) (o : Options ν) c p,
      (m.routeDemands g demands o).result ≠ .error (.conflict c p) := by
  have hnodup : (demands.flatMap g.partitions).Nodup := by
    rw [EntityGraph.flatMap_partitions hcounts hblocks]
    exact Partition.nodup_block a.next hsum
  refine ⟨hnodup, fun f radius d _ nets h => EntityGraph.partitions_of_route h, ?_⟩
  intro m o c p h
  rw [routeDemands] at h
  cases hrun : Run.demands m.toFabric g o .start demands with
  | ok r =>
      rw [hrun] at h
      contradiction
  | error s =>
      rw [hrun] at h
      have hvacant : ∀ q ∈ demands.flatMap g.partitions, Run.start.tables.Vacant q :=
        fun q _ c => Tables.get?_empty ⟨c, q⟩
      exact Run.demands_neverConflict hnodup hvacant hrun c p (Except.error.inj h)

/-- An entity of two cores and one of a single core. -/
def pairGraph : EntityGraph :=
  ⟨[[.core ⟨0, 0⟩ 1, .core ⟨1, 0⟩ 1], [.core ⟨2, 0⟩ 1]]⟩

/-- Traffic both ways, under blocks set aside from the largest number on. -/
def wrappedDemands : List Demand :=
  [{ partition := ⟨4294967295⟩, source := 0, targets := [1] },
    { partition := ⟨1⟩, source := 1, targets := [0] }]

/-- Two demands whose blocks run over the largest partition number share no partition, so no run of
them on any machine ends in a conflict. The run here is over the mesh in a line. -/
theorem wrapped_no_conflict :
    wrappedDemands.flatMap pairGraph.partitions = [⟨4294967295⟩, ⟨0⟩, ⟨1⟩] ∧
    (wrappedDemands.flatMap pairGraph.partitions).Nodup ∧
    ∀ c p, ((standard EntityGraph.lineMesh).routeDemands pairGraph wrappedDemands
      .standard).result ≠ .error (.conflict c p) := by
  obtain ⟨hnodup, -, hno⟩ := routeDemands_no_conflict (ν := Float) pairGraph wrappedDemands [2, 1]
    ⟨⟨4294967295⟩⟩ (by decide +kernel) (by decide +kernel) (by decide)
  exact ⟨by decide +kernel, hnodup, hno _ _⟩

end Machine

end Multicast
