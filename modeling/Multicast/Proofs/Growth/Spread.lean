import Multicast.Growth.Spread
import Multicast.Proofs.Growth.Laid
import Multicast.Proofs.Tree.Proper

/-!
# `Multicast.Proofs.Growth.Spread`: the tree of a net before its repair

From a source that works a tree is laid to any sinks on the grid (`spread_laid`), so a
net whose endpoints lie on the grid and whose source chip works always gets one
(`spreadNet_spec`). The tree is proper, hands exactly the sinks their packets, each
by its own way out of its chip (`Sound.mem_terminals`), and ends nowhere else
(`Grown.noDeadEnd`).
-/

set_option autoImplicit false

namespace Multicast

open Growth (Sound Laid PathsObey hangsOff)

/-- The tree of a net: it starts on the source chip, and nothing but the sinks hangs off it. -/
structure Net.Grown (net : Net) (g : Growth) : Prop where
  sound : Sound (· ∈ net.sinks.map Endpoint.chip) net.sinks g
  root_chip : g.tree.chip? g.tree.root = some net.source.chip
  sinks : ∀ e ∈ net.sinks, g.index.contains e.chip = true

namespace Growth.Sound

variable {g : Growth} {excused : Chip → Prop} {hung : List Endpoint} {n : NodeId}

/-- A tree under construction is proper: a forest with the root on top, and no chip twice. -/
theorem isProper (h : Sound excused hung g) : g.tree.IsProper := by
  refine h.forest.isProper (h.root ▸ h.top.2 rfl) fun m n hm _ hmn => ?_
  have hlt := h.forest.lt_of_below (h.top.2 h.root).1 hm
  obtain ⟨c, hc⟩ := RouteTree.exists_chip?_iff.2 hlt
  exact h.alone hc (hmn ▸ hc)

/-- What is delivered is what was hung up, each endpoint by its own way out of its own chip. The
node of a chip is one only, so an endpoint is delivered where it was hung up and nowhere else. -/
theorem mem_terminals (h : Sound excused hung g)
    (hhung : ∀ e ∈ hung, g.index.contains e.chip = true) {x : RouteTree.Terminal} :
    x ∈ g.tree.terminals ↔
      x.endpoint ∈ hung ∧ x.chip = x.endpoint.chip ∧ x.route = some x.endpoint.route := by
  obtain ⟨c, route, e⟩ := x
  rw [h.isProper.mem_terminals]
  constructor
  · rintro ⟨n, -, hc, hmem⟩
    rw [h.endings hc] at hmem
    obtain ⟨y, hy, heq⟩ := List.mem_map.1 hmem
    obtain ⟨rfl, rfl⟩ := Prod.mk.inj heq
    obtain ⟨hy, hyc⟩ := List.mem_filter.1 hy
    exact ⟨hy, (eq_of_beq hyc).symm, rfl⟩
  · rintro ⟨he, hc, hr⟩
    obtain ⟨n, hn⟩ := Growth.contains_iff_exists.1 (hhung e he)
    have hchip := h.indexed.1 hn
    refine ⟨n, h.below (RouteTree.lt_size_of_chip? hchip), hchip.trans (by rw [hc]), ?_⟩
    rw [h.endings hchip]
    refine List.mem_map.2 ⟨e, List.mem_filter.2 ⟨he, beq_self_eq_true _⟩, ?_⟩
    rw [hr]

/-- Endpoints that were hung up once are delivered to once. -/
theorem nodup_terminals (h : Sound excused hung g) (hnodup : hung.Nodup) :
    g.tree.terminals.Nodup := by
  refine List.nodup_flatMap.2 ⟨fun n _ => ?_, h.isProper.nodup_reached.imp ?_⟩
  · cases hc : g.tree.chip? n with
    | none => simp [RouteTree.terminalsAt, hc]
    | some c =>
        rw [RouteTree.terminalsAt_eq hc, h.endings hc, hangsOff, List.map_map]
        exact (hnodup.filter _).map fun _ _ heq => congrArg RouteTree.Terminal.endpoint heq
  · -- Two nodes are on different chips, and a terminal is on the chip of its node.
    intro m n hne x hm hn
    exact hne (h.alone (RouteTree.mem_terminalsAt.1 hm).1 (RouteTree.mem_terminalsAt.1 hn).1)

/-- Endpoints hung up without repeats are what is delivered to, each once. -/
theorem terminals_perm (h : Sound excused hung g)
    (hhung : ∀ e ∈ hung, g.index.contains e.chip = true) (hnodup : hung.Nodup) :
    g.tree.terminals.Perm (hung.map fun e => ⟨e.chip, some e.route, e⟩) := by
  have hmap : (hung.map fun e => (⟨e.chip, some e.route, e⟩ : RouteTree.Terminal)).Nodup :=
    hnodup.map fun _ _ heq => congrArg RouteTree.Terminal.endpoint heq
  refine (List.perm_ext_iff_of_nodup (h.nodup_terminals hnodup) hmap).2 fun x => ?_
  obtain ⟨c, route, e⟩ := x
  rw [h.mem_terminals hhung, List.mem_map]
  constructor
  · rintro ⟨he, hc, hr⟩
    obtain rfl : c = e.chip := hc
    obtain rfl : route = some e.route := hr
    exact ⟨e, he, rfl⟩
  · rintro ⟨x, hx, heq⟩
    cases heq
    exact ⟨hx, rfl, rfl⟩

end Growth.Sound

namespace Net.Grown

variable {net : Net} {g : Growth}

/-- A node that forwards nowhere has to be on the chip of a sink, which it serves then. -/
theorem noDeadEnd (h : net.Grown g) : g.tree.NoDeadEnd := by
  intro n hn h0
  by_contra hleaf
  have hleaf : g.tree.isLeaf n = true := by simpa using hleaf
  obtain ⟨c, hc⟩ := RouteTree.exists_chip?_iff.2 (h.sound.isProper.lt_size hn)
  -- Only the root and the chips of sinks may forward nowhere, and a sink hangs off its node.
  rw [h.sound.root] at h0
  obtain ⟨e, he, rfl⟩ := List.mem_map.1 ((h.sound.leaf hleaf hc).resolve_left h0)
  have hnil := (RouteTree.isLeaf_iff.1 hleaf).2
  rw [h.sound.endings hc, hangsOff, List.map_eq_nil_iff, List.filter_eq_nil_iff] at hnil
  exact hnil e he (beq_self_eq_true _)

end Net.Grown

namespace Fabric

variable {f : Fabric} {net : Net} {radius : Nat} {source : Chip} {sinks : List Chip}

/-- No chip is found off the grid when all are on it. -/
theorem firstOff?_eq_none {chips : List Chip} :
    f.firstOff? chips = none ↔ ∀ c ∈ chips, f.contains c = true := by
  simp [firstOff?]

/-- From a source that works a tree is laid to any sinks on the grid. -/
theorem spread_laid {rule : Chip → Direction → Chip → Prop}
    (hobey : PathsObey f.toGrid rule source radius)
    (hon : ∀ c ∈ source :: sinks, f.contains c = true) (hlive : f.isChip source = true) :
    ∃ g, f.spread source sinks radius = .ok g ∧ Laid f.toGrid rule source sinks g := by
  have hsorted := Ordered.sortStable_perm (f.distance source) sinks
  obtain ⟨hsource, hsinks⟩ := List.forall_mem_cons.1 hon
  obtain ⟨g, hok, hlaid⟩ := (Growth.laid_single rule hsource).attachAll hobey
    fun c hc => hsinks c (hsorted.mem_iff.1 hc)
  refine ⟨g, ?_, hlaid.perm hsorted⟩
  rw [spread, firstOff?_eq_none.2 hon]
  simp only [hlive, if_true]
  exact hok

/-- A net on the grid with a working source chip gets its tree, all of it on the grid. -/
theorem spreadNet_spec (hon : ∀ c ∈ net.chips, f.contains c = true)
    (hsource : f.isChip net.source.chip = true) (radius : Nat) :
    ∃ g, f.spreadNet net radius = .ok g ∧ net.Grown g := by
  obtain ⟨g, hok, hlaid⟩ :=
    spread_laid (Growth.pathsObey_step f.toGrid net.source.chip radius) hon hsource
  have hsinks : ∀ e ∈ net.sinks, g.index.contains e.chip = true := fun e he =>
    hlaid.present _ (mem_distinct.2 (List.mem_map_of_mem he))
  obtain ⟨g', hok'⟩ := Growth.addTerminals_ok net.source.chip hsinks
  obtain ⟨hsound, hindex, -⟩ := hlaid.sound.addTerminals hok'
  refine ⟨g', ?_, hsound.mono fun c hc => mem_distinct.1 hc, ?_, ?_⟩
  · rw [spreadNet, hok]
    exact hok'
  · rw [hsound.root]
    exact hsound.indexed.1 (hindex ▸ hlaid.start)
  · rw [hindex]
    exact hsinks

/-- A net gets its tree only if it is on the grid and its source chip works. -/
theorem on_of_spreadNet {g : Growth} (h : f.spreadNet net radius = .ok g) :
    (∀ c ∈ net.chips, f.contains c = true) ∧ f.isChip net.source.chip = true := by
  rw [spreadNet, spread] at h
  cases hoff : f.firstOff? (net.source.chip :: net.sinkChips) with
  | some c =>
      simp only [hoff] at h
      contradiction
  | none =>
      refine ⟨firstOff?_eq_none.1 hoff, ?_⟩
      by_contra hdead
      simp only [hoff, if_neg hdead] at h
      contradiction

end Fabric

end Multicast
