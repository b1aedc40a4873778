import Multicast.Cost.PathTree
import Multicast.Proofs.Cost.Retrace
import Multicast.Proofs.Growth.Spread
import Multicast.Proofs.Repair.Pieces

/-!
# `Multicast.Proofs.Cost.PathTree`: traced-back paths make a tree

Paths that follow one record of predecessors enter each chip in one way. A hop onto a chip that
is in the tree therefore finds the edge it asks for (`Merged.mergeHop`), so merging such paths
never fails, and what comes out is a tree whose edges are in the record and in which only the
ends of paths may forward nowhere (`grow_spec`). With the sinks hung up it is a tree of its net
over working links (`netTree_spec`).
-/

set_option autoImplicit false

namespace Multicast

open Growth (Sound)

namespace CostPaths

variable {before : Chip → Option (Direction × Chip)} {source a c : Chip} {excused : Chip → Prop}
  {g : Growth} {last : NodeId} {hop : Hop} {hops : List Hop} {paths : List (Chip × List Hop)}

/-- Every edge between nodes enters its chip as a record of predecessors says. -/
def EdgesFollow (before : Chip → Option (Direction × Chip)) (t : RouteTree) : Prop :=
  ∀ {p route n}, (route, n) ∈ t.childNodes p → ∃ a link c,
    t.chip? p = some a ∧ route = some (.link link) ∧ t.chip? n = some c ∧ before c = some (link, a)

/-- A node added below another over the link its record names. -/
theorem EdgesFollow.addChild {t : RouteTree} {link : Direction} (h : EdgesFollow before t)
    (hlast : t.chip? last = some a) (hbefore : before c = some (link, a)) :
    EdgesFollow before (t.addChild last (some (.link link)) c) := by
  have hobeys : t.EdgesObey fun a link c => before c = some (link, a) := h
  intro p route n hn
  exact hobeys.addChild hlast hbefore hn

/-- A tree of merged paths: it starts on the source and has the edges of the record only. -/
structure Merged (before : Chip → Option (Direction × Chip)) (source : Chip)
    (excused : Chip → Prop) (g : Growth) : Prop where
  sound : Sound excused [] g
  start : g.index.get? source = some 0
  edges : EdgesFollow before g.tree

/-- The tree that paths are merged into starts as the source alone, which has no edge that a record
would have to explain. -/
theorem merged_single (before : Chip → Option (Direction × Chip)) (source : Chip)
    (excused : Chip → Prop) : Merged before source excused (.single source) where
  sound := Growth.sound_single source excused
  start := (Growth.sound_single source excused).indexed.2 rfl
  edges := RouteTree.edgesObey_single (fun a link c => before c = some (link, a)) source

namespace Merged

/-- A node with an edge to another needs no excuse. -/
theorem unexcuse (h : Merged before source (fun b => excused b ∨ b = a) g)
    (hlast : g.tree.chip? last = some a) (hkid : g.tree.isLeaf last = false) :
    Merged before source excused g := by
  refine ⟨{ h.sound with leaf := fun {n b} hleaf hb => ?_ }, h.start, h.edges⟩
  refine (h.sound.leaf hleaf hb).imp_right fun hx => hx.resolve_right ?_
  rintro rfl
  obtain rfl := h.sound.alone hb hlast
  rw [hleaf] at hkid
  contradiction

/-- Chips may be excused from having to carry something without being looked at again. -/
theorem mono {excused' : Chip → Prop} (h : Merged before source excused g)
    (hex : ∀ b, excused b → excused' b) : Merged before source excused' g :=
  ⟨h.sound.mono hex, h.start, h.edges⟩

/-- A hop onto a chip of the tree is there as an edge. The node of the chip has a parent, since it
is not the root; and the edge from there is the one of the record, as the hop is. -/
theorem exists_edge (h : Merged before source excused g) (hsource : before source = none)
    (hlast : g.tree.chip? last = some a) (hbefore : before hop.chip = some (hop.link, a))
    {n : NodeId} (hn : g.index.get? hop.chip = some n) :
    (some (.link hop.link), n) ∈ g.tree.childNodes last := by
  have hchip := h.sound.indexed.1 hn
  -- The source has no predecessor, so the node is not the root and has a parent.
  have hne : n ≠ g.tree.root := by
    rintro rfl
    have hroot := h.sound.indexed.1 h.start
    rw [h.sound.root, hroot] at hchip
    rw [← Option.some.inj hchip, hsource] at hbefore
    contradiction
  obtain heq | ⟨p, -, hp⟩ := (h.sound.below (RouteTree.lt_size_of_chip? hchip)).cases_tail
  · exact absurd heq.symm hne
  · obtain ⟨route, hp⟩ := RouteTree.mem_kids.1 hp
    obtain ⟨b, link, c, hb, rfl, hc, hbc⟩ := h.edges hp
    obtain rfl := Option.some.inj (hchip.symm.trans hc)
    obtain ⟨rfl, rfl⟩ := Prod.mk.inj (Option.some.inj (hbefore.symm.trans hbc))
    rwa [h.sound.alone hlast hb]

/-- A hop onto a new chip adds an edge of the record. -/
theorem addChild (h : Merged before source (fun b => excused b ∨ b = a) g)
    (hsource : before source = none) (hlast : g.tree.chip? last = some a)
    (hbefore : before hop.chip = some (hop.link, a)) (hnew : g.index.get? hop.chip = none) :
    Merged before source (fun b => excused b ∨ b = hop.chip)
      ⟨g.tree.addChild last (some (.link hop.link)) hop.chip,
        g.index.set hop.chip g.tree.size⟩ := by
  refine ⟨h.sound.addChild hlast hnew _, ?_, ?_⟩
  · have hne : source ≠ hop.chip := by
      intro heq
      rw [← heq, hsource] at hbefore
      contradiction
    rw [ChipIndex.get?_set, if_neg hne]
    exact h.start
  · exact EdgesFollow.addChild h.edges hlast hbefore

/-- A hop of the record can be merged. If its chip is in the tree, the edge is there and nothing
changes; if not, the chip gets a node. Either way the last node has an edge to another now and needs
no excuse any more. -/
theorem mergeHop (h : Merged before source (fun b => excused b ∨ b = a) g)
    (hsource : before source = none) (hlast : g.tree.chip? last = some a)
    (hbefore : before hop.chip = some (hop.link, a)) :
    ∃ g' n, CostPaths.mergeHop g last hop = .ok (g', n) ∧
      Merged before source (fun b => excused b ∨ b = hop.chip) g' ∧
      g'.tree.chip? n = some hop.chip ∧
      ∀ b, g.index.contains b = true → g'.index.contains b = true := by
  unfold CostPaths.mergeHop
  cases hn : g.index.get? hop.chip with
  | some n =>
      have hedge := h.exists_edge hsource hlast hbefore hn
      have hfound : (g.tree.edges last).contains ⟨some (.link hop.link), .node n⟩ = true :=
        List.contains_iff_mem.2 (RouteTree.mem_childNodes.1 hedge)
      have hkid := RouteTree.isLeaf_of_mem_kids (RouteTree.mem_kids.2 ⟨_, hedge⟩)
      refine ⟨g, n, if_pos hfound, (h.unexcuse hlast hkid).mono fun _ => .inl, ?_, fun _ => id⟩
      exact h.sound.indexed.1 hn
  | none =>
      simp only [RouteTree.newest_addChild]
      refine ⟨_, _, rfl, h.addChild hsource hlast hbefore hn, by simp,
        fun b hb => ?_⟩
      exact (Growth.Gains.addChild hn last _).contains.2 (.inl hb)

/-- A path of the record can be merged, and then its end is in the tree. By induction on the hops.
-/
theorem mergePath (h : Merged before source (fun b => excused b ∨ b = a) g)
    (hsource : before source = none) (hlast : g.tree.chip? last = some a)
    (hfollows : Follows before a hops c) :
    ∃ g', CostPaths.mergePath g last hops = .ok g' ∧
      Merged before source (fun b => excused b ∨ b = c) g' ∧ g'.index.contains c = true ∧
      ∀ b, g.index.contains b = true → g'.index.contains b = true := by
  -- On the hops, with the node the last one led to: besides the ends of paths it alone is excused.
  induction hops generalizing g last a with
  | nil =>
      obtain rfl : a = c := hfollows
      exact ⟨g, rfl, h, Growth.contains_iff_exists.2 ⟨last, h.sound.indexed.2 hlast⟩, fun _ => id⟩
  | cons hop rest ih =>
      obtain ⟨hbefore, hrest⟩ := hfollows
      obtain ⟨next, n, hok, hnext, hn, hkept⟩ := h.mergeHop hsource hlast hbefore
      obtain ⟨g', hok', hmerged, hend, hkept'⟩ := ih hnext hn hrest
      refine ⟨g', ?_, hmerged, hend, fun b hb => hkept' b (hkept b hb)⟩
      rw [CostPaths.mergePath, hok]
      exact hok'

/-- Paths of the record can be merged, and only their ends may forward nowhere then. By induction on
the paths, each of which starts from the root again. -/
theorem mergePaths (h : Merged before source excused g) (hsource : before source = none)
    (hfollows : ∀ path ∈ paths, Follows before source path.2 path.1) :
    ∃ g', CostPaths.mergePaths g paths = .ok g' ∧
      Merged before source (fun b => excused b ∨ b ∈ paths.map (·.1)) g' ∧
      (∀ path ∈ paths, g'.index.contains path.1 = true) ∧
      ∀ b, g.index.contains b = true → g'.index.contains b = true := by
  induction paths generalizing g excused with
  | nil => exact ⟨g, rfl, h.mono fun _ => .inl, by simp, fun _ => id⟩
  | cons path rest ih =>
      obtain ⟨hpath, hrest⟩ := List.forall_mem_cons.1 hfollows
      have hroot : g.tree.chip? g.tree.root = some source := by
        rw [h.sound.root]
        exact h.sound.indexed.1 h.start
      obtain ⟨next, hok, hnext, hend, hkept⟩ :=
        (h.mono fun _ => .inl).mergePath hsource hroot hpath
      obtain ⟨g', hok', hmerged, hends, hkept'⟩ := ih hnext hrest
      refine ⟨g', ?_, hmerged.mono fun b hb => ?_, ?_, fun b hb => hkept' b (hkept b hb)⟩
      · rw [CostPaths.mergePaths, hok]
        exact hok'
      · rw [List.map_cons, List.mem_cons, ← or_assoc]
        exact hb
      · exact List.forall_mem_cons.2 ⟨hkept' _ hend, hends⟩

end Merged

/-- Paths of one record make a tree; only their ends may forward nowhere, and they are all there. -/
theorem grow_spec {p : CostPaths} (hstart : p.source = source) (hsource : before source = none)
    (hfollows : ∀ path ∈ p.paths, Follows before source path.2 path.1) :
    ∃ g, p.grow = .ok g ∧ Merged before source (· ∈ p.paths.map (·.1)) g ∧
      ∀ path ∈ p.paths, g.index.contains path.1 = true := by
  obtain ⟨g, hok, hmerged, hends, -⟩ :=
    (merged_single before source fun _ => False).mergePaths hsource hfollows
  rw [← hstart] at hok
  exact ⟨g, hok, hmerged.mono fun b hb => hb.resolve_left id, hends⟩

/-- A tree is made of paths just when they can all be merged, and it is the one they were merged
into. -/
theorem toTree_eq_ok {p : CostPaths} {t : RouteTree} :
    p.toTree = .ok t ↔ ∃ g, p.grow = .ok g ∧ g.tree = t := by
  simp only [toTree, bind_eq_ok, pure, Except.pure, Except.ok.injEq]

/-- Hanging up endpoints adds no edges between nodes. By induction on the endpoints; each of them is
an edge that leads to no node. -/
theorem EdgesFollow.addTerminals {g' : Growth} {hung endpoints : List Endpoint}
    (h : EdgesFollow before g.tree) (hsound : Sound excused hung g)
    (hok : g.addTerminals source endpoints = .ok g') : EdgesFollow before g'.tree := by
  induction endpoints generalizing g hung with
  | nil =>
      obtain rfl := Except.ok.inj hok
      exact h
  | cons e rest ih =>
      rw [Growth.addTerminals, Growth.addTerminal] at hok
      cases hn : g.index.get? e.chip with
      | none =>
          simp only [hn] at hok
          contradiction
      | some n =>
          simp only [hn] at hok
          refine ih ?_ (hsound.addTerminal hn) hok
          have hlt := RouteTree.lt_size_of_chip? (hsound.indexed.1 hn)
          intro p route k hk
          rw [RouteTree.childNodes_addEdge_terminal hlt] at hk
          simp only [RouteTree.chip?_addEdge]
          exact h hk

/-- A tree over a record of working links is over working links. -/
theorem EdgesFollow.edgesWork {f : Fabric} {t : RouteTree} (h : EdgesFollow before t)
    (hlinks : ∀ {c d a}, before c = some (d, a) → f.follow? a d = some c) : t.EdgesWork f := by
  intro p route n hn
  obtain ⟨a, link, c, ha, hr, hc, hbefore⟩ := h hn
  exact ⟨a, link, c, ha, hr, hc, hlinks hbefore⟩

end CostPaths

/-- The index of a tree made anew holds the same nodes. In a proper tree a chip has one node, so
there is one index of it. -/
theorem Growth.Sound.ofTree {excused : Chip → Prop} {hung : List Endpoint} {g : Growth}
    (h : Sound excused hung g) : Sound excused hung (.ofTree g.tree) := by
  refine { h with indexed := fun {c n} => ?_ }
  refine h.isProper.get?_index.trans (and_iff_right_of_imp fun hc => ?_)
  exact h.below (RouteTree.lt_size_of_chip? hc)

namespace CostRouter

variable {ν : Type} [Quantity ν] {r : CostRouter ν} {net : Net} {t : RouteTree}

/-- The tree of a net over cheapest paths is one of its trees, and its edges are those that one
record of costs explains. The paths follow the record, so the tree made of them does, and hanging up
the sinks adds nothing to be explained. -/
theorem netTree_follows (h : r.netTree net = .ok t) : ∃ g, g.tree = t ∧ net.Grown g ∧
    ∃ costs, CostPaths.EdgesFollow (r.before? costs net.source.chip) t := by
  unfold netTree at h
  split at h
  · contradiction
  · obtain ⟨p, hp, h⟩ := bind_eq_ok.1 h
    obtain ⟨tree, htree, h⟩ := bind_eq_ok.1 h
    obtain ⟨grown, hok, h⟩ := bind_eq_ok.1 h
    obtain rfl := Except.ok.inj h
    obtain ⟨hstart, hmap, costs, hfollows⟩ := paths_follow hp
    obtain ⟨g, hg, hmerged, -⟩ := CostPaths.grow_spec hstart (before?_source r costs _) hfollows
    obtain ⟨_, hg', rfl⟩ := CostPaths.toTree_eq_ok.1 htree
    obtain rfl := Except.ok.inj (hg.symm.trans hg')
    have hsound := hmerged.sound.ofTree
    obtain ⟨hgrown, hindex, hsinks⟩ := hsound.addTerminals hok
    refine ⟨grown, rfl, ⟨hgrown.mono fun c hc => ?_, ?_, fun e he => ?_⟩, costs, ?_⟩
    · rw [hmap] at hc
      exact mem_distinct.1 hc
    · rw [hgrown.root, ← hgrown.indexed, hindex, hsound.indexed]
      exact hmerged.sound.indexed.1 hmerged.start
    · rw [hindex]
      exact hsinks e he
    · exact CostPaths.EdgesFollow.addTerminals (g := .ofTree g.tree) hmerged.edges hsound hok

/-- The tree of a net over cheapest paths is one of its trees, over working links. -/
theorem netTree_spec (h : r.netTree net = .ok t) :
    ∃ g, g.tree = t ∧ net.Grown g ∧ t.EdgesWork r.machine.toFabric := by
  obtain ⟨g, htree, hgrown, costs, hedges⟩ := netTree_follows h
  exact ⟨g, htree, hgrown, CostPaths.EdgesFollow.edgesWork hedges fun hc => follow?_of_before? hc⟩

end CostRouter

end Multicast
