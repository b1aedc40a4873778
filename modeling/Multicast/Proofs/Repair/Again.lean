import Multicast.Proofs.Repair.Repair

/-!
# `Multicast.Proofs.Repair.Again`: repairing what is repaired

A repair gives a tree over working chips and links (`Repaired.Sound.worksOn`). Such a
tree is copied whole: no chip is dead, no edge is broken, and on every chip the edges
come over in their order, so the copy is the tree under other numbers
(`repair_of_worksOn`). Nothing is left to mend or to prune. Hence a second repair
reports nothing and changes nothing, which is half of `repair_idempotent`. The other
half is the sum of the report: a node of the new tree was copied or created, and not
pruned, and the index has one chip for each.
-/

set_option autoImplicit false

namespace Multicast

/-- A sound repair leaves only working chips and links below the root. -/
theorem Repaired.Sound.worksOn {f : Fabric} {t : RouteTree} {r : Repaired} (h : r.Sound f t) :
    r.tree.WorksOn f where
  live _ hc := h.live hc
  lands _ hk := h.works hk

/-- The index of a repaired tree has a chip for each of its nodes. -/
theorem Repaired.Sound.reachedCount_eq {f : Fabric} {t : RouteTree} {r : Repaired}
    (h : r.Sound f t) : r.tree.reachedCount = r.index.size := by
  have hperm : r.index.keys.Perm r.tree.reachedChips := by
    refine (List.perm_ext_iff_of_nodup Std.ExtTreeMap.nodup_keys
      h.proper.nodup_reachedChips).2 fun c => ?_
    rw [Std.ExtTreeMap.mem_keys, Std.ExtTreeMap.mem_iff_isSome_getElem?,
      Option.isSome_iff_exists, h.proper.mem_reachedChips]
    exact exists_congr fun n => h.indexed
  rw [← h.proper.length_reachedChips, ← hperm.length_eq, Std.ExtTreeMap.length_keys]

namespace Fabric

open Reconnect Cut

variable {f : Fabric} {t : RouteTree}

/-- The copy of a tree that works is the tree under other numbers. -/
theorem unnumbered_cut {cut : CutTree} (ht : t.IsProper) (hcut : cut.Covers f t)
    (hw : t.WorksOn f) : cut.tree.unnumbered = t.unnumbered := by
  have htop : ∀ {n}, cut.tree.IsTop n ↔ n = 0 := by
    simp [hcut.top, hcut.broken_of_works hw]
  have hproper : cut.tree.IsProper := by
    refine hcut.pieces.forest.isProper (hcut.root ▸ htop.2 rfl) fun m n hm _ hmn => ?_
    obtain ⟨c, hc⟩ := RouteTree.exists_chip?_iff.2
      (hcut.pieces.forest.lt_of_below (hcut.root ▸ (htop.2 rfl).1) hm)
    exact hcut.pieces.eq_of_chip? hc (hmn ▸ hc)
  refine RouteTree.unnumbered_eq ht hproper (hcut.root ▸ hcut.root_chip) fun {n m} hn _ hmn => ?_
  obtain ⟨c, hc⟩ := RouteTree.exists_chip?_iff.2 (ht.lt_size hn)
  exact hcut.exits_of_works hw hn hc (hcut.pieces.indexed.2 (hmn.trans hc))

/-- A tree that works is repaired by copying it. -/
theorem repair_of_worksOn (ht : t.IsProper) (hw : t.WorksOn f) :
    ∃ r, f.repair t = .ok r ∧ r.report = .clean ∧ r.tree.unnumbered = t.unnumbered := by
  obtain ⟨rootChip, hroot⟩ := RouteTree.exists_chip?_iff.2 (ht.lt_size .refl)
  rcases cut_spec ht hroot (hw.live .refl hroot) with ⟨cut, hok, hcut⟩ | ⟨error, -, hstranded⟩
  · refine ⟨⟨cut.tree, cut.index, .clean⟩, ?_, rfl, unnumbered_cut ht hcut hw⟩
    simp only [repair, hok, bind, Except.bind, hcut.broken_of_works hw, hcut.dead_of_works hw]
    rfl
  · -- No chip of the tree is dead.
    obtain ⟨n, c, hn, hc, hdead, -, -⟩ := hstranded
    rw [hw.live hn hc] at hdead
    contradiction

/-- The report of a repair accounts for every node, and a second repair finds nothing to do: it
gives the tree it is given, but for the numbers of the nodes. So does a repair of any tree over
working chips and links. -/
theorem repair_idempotent (f : Fabric) (t : RouteTree) (ht : t.IsProper) :
    (∀ r, f.repair t = .ok r →
      (r.tree.reachedCount : Int) =
        t.reachedCount - r.report.dead.length + r.report.added - r.report.pruned ∧
      ∃ again, f.repair r.tree = .ok again ∧ again.report = .clean ∧
        again.tree.unnumbered = r.tree.unnumbered) ∧
    (t.WorksOn f →
      ∃ r, f.repair t = .ok r ∧ r.report = .clean ∧ r.tree.unnumbered = t.unnumbered) := by
  refine ⟨fun r hr => ?_, repair_of_worksOn ht⟩
  obtain ⟨rootChip, hroot⟩ := RouteTree.exists_chip?_iff.2 (ht.lt_size .refl)
  have hends := repair_ends (f := f) ht hroot
  rw [hr] at hends
  cases hends with
  | repaired _ _ _ hsound hcount =>
      rw [← hsound.reachedCount_eq] at hcount
      exact ⟨by omega, repair_of_worksOn hsound.proper hsound.worksOn⟩

/-- A whole row works when all of its chips and edges do. -/
theorem worksOn_of_row (hlive : ∀ n < t.size, ∀ c ∈ t.chip? n, f.isChip c = true)
    (hlands : ∀ p < t.size, ∀ x ∈ t.childNodes p, ∃ a ∈ t.chip? p, ∃ b ∈ t.chip? x.2,
      landsOn f a x.1 b = true) : t.WorksOn f where
  live _ hc := hlive _ (RouteTree.lt_size_of_chip? hc) _ hc
  lands _ hk := by
    obtain ⟨a, ha, b, hb, hl⟩ :=
      hlands _ (RouteTree.lt_size_of_mem_kids (RouteTree.mem_kids.2 ⟨_, hk⟩)) _ hk
    obtain ⟨d, hroute, hlink⟩ := landsOn_iff.1 hl
    exact ⟨a, d, b, ha, hroute, hb, hlink⟩

/-- A mesh with a dead chip next to the corner, where the links out of the chip above the corner
lead back only. -/
def holedMesh : Fabric :=
  let ports : List Port := [⟨⟨0, 1⟩, .east⟩, ⟨⟨0, 1⟩, .northEast⟩, ⟨⟨0, 1⟩, .north⟩]
  ports.foldl (fun f port => f.killLinkOneWay port.chip port.link)
    ((Fabric.intact { width := 3, height := 3, wraps := false }).killChip ⟨1, 0⟩)

/-- A tree with two branches from the corner, one over the dead chip. -/
def forkedTree : RouteTree :=
  let lower := (RouteTree.single ⟨0, 0⟩).addChild 0 (some (.link .east)) ⟨1, 0⟩
  let lower := lower.addChild 1 (some (.link .east)) ⟨2, 0⟩
  let upper := lower.addChild 0 (some (.link .north)) ⟨0, 1⟩
  let upper := upper.addChild 3 (some (.link .east)) ⟨1, 1⟩
  (upper.addEdge 2 ⟨some (.core 1), .terminal (.core ⟨2, 0⟩ 1)⟩).addEdge 4
    ⟨some (.core 2), .terminal (.core ⟨1, 1⟩ 2)⟩

/-- The forked tree is one a repair may be given. -/
theorem isProper_forkedTree : forkedTree.IsProper :=
  RouteTree.isProper_of_row (by decide) (by decide) (by decide) (by decide) (by decide)

/-- The repair of the forked tree leaves out a dead chip, adds a node and prunes one; a second
repair does nothing, and on the mesh without faults neither does the first. -/
theorem forkedTree_idempotent :
    (∃ r, holedMesh.repair forkedTree = .ok r ∧
      r.report = ⟨[(⟨0, 0⟩, ⟨2, 0⟩), (⟨0, 1⟩, ⟨1, 1⟩)], [⟨1, 0⟩], 1, 1⟩ ∧
      forkedTree.reachedCount = 5 ∧ r.tree.reachedCount = 4 ∧
      ∃ again, holedMesh.repair r.tree = .ok again ∧ again.report = .clean ∧
        again.tree.unnumbered = r.tree.unnumbered) ∧
    forkedTree.WorksOn (.intact ⟨3, 3, false⟩) ∧
      ∃ r, (Fabric.intact ⟨3, 3, false⟩).repair forkedTree = .ok r ∧ r.report = .clean ∧
        r.tree.unnumbered = forkedTree.unnumbered := by
  constructor
  · have hreport : (holedMesh.repair forkedTree).map (·.report) =
        .ok ⟨[(⟨0, 0⟩, ⟨2, 0⟩), (⟨0, 1⟩, ⟨1, 1⟩)], [⟨1, 0⟩], 1, 1⟩ := by decide +kernel
    cases hr : holedMesh.repair forkedTree with
    | error e =>
        rw [hr] at hreport
        contradiction
    | ok r =>
        rw [hr] at hreport
        have hreport : r.report = _ := Except.ok.inj hreport
        obtain ⟨hcount, hagain⟩ :=
          (repair_idempotent holedMesh forkedTree isProper_forkedTree).1 r hr
        have hbefore : forkedTree.reachedCount = 5 := by decide +kernel
        rw [hbefore, hreport] at hcount
        exact ⟨r, rfl, hreport, hbefore, Int.ofNat.inj hcount, hagain⟩
  · have hworks : forkedTree.WorksOn (.intact ⟨3, 3, false⟩) :=
      worksOn_of_row (by decide +kernel) (by decide +kernel)
    exact ⟨hworks, (repair_idempotent _ forkedTree isProper_forkedTree).2 hworks⟩

end Fabric

end Multicast
