import Multicast.Proofs.Repair.Prune
import Multicast.Repair.Repair

/-!
# `Multicast.Proofs.Repair.Repair`: what a repair gives

`Fabric.repair_ends` runs a proper tree through the copy, the detours and the pruning:
a repair ends with a tree that is sound (`Repaired.Sound`) and with a report that accounts
for every node, or for one of three reasons, a dead root, an endpoint on a dead chip, or a
working chip of the tree without a path from the root. `Fabric.repair_sound` is read off
the first case, with what the other three have in common: no chip was ever visited twice.
-/

set_option autoImplicit false

namespace Multicast

/-- A repaired tree is over working chips and links and delivers what the old one did. -/
structure Repaired.Sound (f : Fabric) (t : RouteTree) (r : Repaired) : Prop where
  proper : r.tree.IsProper
  root_chip : r.tree.chip? r.tree.root = t.chip? t.root
  works : r.tree.EdgesWork f
  live : ∀ {n c}, r.tree.chip? n = some c → f.isChip c = true
  indexed : ∀ {c : Chip} {n : NodeId},
    r.index[c]? = some n ↔ r.tree.Below r.tree.root n ∧ r.tree.chip? n = some c
  terminals : r.tree.terminals.Perm t.terminals
  noDeadEnd : t.NoDeadEnd → r.tree.NoDeadEnd

namespace Fabric

open Reconnect Cut

variable {f : Fabric} {t : RouteTree} {rootChip : Chip}

/-- The copy is where mending starts. -/
theorem mends_cut {cut : CutTree} (hcut : cut.Covers f t) :
    Mends f cut (Heads cut cut.broken)
      (fun c => (t.NoDeadEnd → c ∈ cut.broken.map (·.1)) ∨ c ∈ ([] : List Chip))
      cut.tree cut.index where
  pieces := hcut.pieces
  root := hcut.root
  top := hcut.top
  kept := id
  endings := rfl
  leaf {m c} hm hc := by
    by_cases ht : t.NoDeadEnd
    · exact (hcut.excused ht hm hc).imp_right fun hb => .inl fun _ => hb
    · exact .inr (.inl fun h => absurd h ht)

/-- After pruning the tree delivers what the old one did. -/
theorem terminals_perm {cut : CutTree} {excused : NodeId → Chip → Prop} (ht : t.IsProper)
    (hcut : cut.Covers f t) {u : RouteTree} {index : ChipMap} (hu : u.IsProper)
    (h : Prunes f cut excused u index) : u.terminals.Perm t.terminals := by
  refine RouteTree.DeliversIn.perm ?_ ?_ hu ht
  · -- What delivers after pruning is no node of a detour, so it was copied.
    intro m c _ hc hends
    have hlt : m < cut.tree.size := by
      by_contra hlt
      rw [h.endings, RouteTree.endings, RouteTree.edges_eq_nil (Nat.le_of_not_lt hlt)] at hends
      exact hends rfl
    obtain ⟨c', hc'⟩ := RouteTree.exists_chip?_iff.2 hlt
    -- It keeps its chip through the repair, and what hangs off it is unchanged.
    have hindex := hcut.pieces.indexed.2 hc'
    obtain rfl := Option.some.inj ((h.kept hindex).symm.trans hc)
    obtain ⟨-, n, hn, hnc⟩ := hcut.copied.1 ⟨m, hindex⟩
    exact ⟨n, hn, hnc, (hcut.endings hn hnc hindex).symm.trans h.endings.symm⟩
  · intro n c hn hc hends
    have hlive : f.isChip c = true := by
      by_contra hdead
      exact hends (hcut.endings_dead hn hc (by simpa using hdead))
    obtain ⟨m, hm⟩ := hcut.copied.2 ⟨hlive, n, hn, hc⟩
    have heq : u.endings m = t.endings n := h.endings.trans (hcut.endings hn hc hm)
    refine ⟨m, ?_, h.kept hm, heq⟩
    -- What hangs off the copy is still below the root, since nothing was pruned that delivers.
    rw [h.root]
    by_contra hb
    exact hends (heq ▸ h.bare hb)

/-- A pruned tree is sound. -/
theorem sound_of_prunes {cut : CutTree} (ht : t.IsProper) (hcut : cut.Covers f t) {r : Repaired}
    (h : Prunes f cut (fun _ _ => ¬ t.NoDeadEnd) r.tree r.index) : r.Sound f t := by
  have hproper : r.tree.IsProper := by
    refine h.forest.isProper (h.root ▸ h.top) fun m n hm _ hmn => ?_
    obtain ⟨c, hc⟩ := RouteTree.exists_chip?_iff.2 (h.forest.lt_of_below (h.root ▸ h.top.1) hm)
    exact h.alone hc (hmn ▸ hc)
  refine ⟨hproper, ?_, h.works, h.live, ?_, terminals_perm ht hcut hproper h, ?_⟩
  · obtain ⟨c, hc⟩ := RouteTree.exists_chip?_iff.2 (ht.lt_size .refl)
    rw [h.root, hc, h.kept (hcut.pieces.indexed.2 (hcut.root_chip.trans hc))]
  · intro c n
    rw [h.root, h.indexed]
    exact and_comm
  · intro hends n hn h0
    by_contra hleaf
    rw [h.root] at hn h0
    obtain ⟨c, hc⟩ := RouteTree.exists_chip?_iff.2 (h.forest.lt_of_below h.top.1 hn)
    exact (h.leaf hn (by simpa using hleaf) hc).elim h0 fun hno => hno hends

/-- How a repair of a proper tree may end. -/
inductive Ends (f : Fabric) (t : RouteTree) (rootChip : Chip) : Except RouteError Repaired → Prop
  | dead (h : f.isChip rootChip = false) : Ends f t rootChip (.error (.deadRoot rootChip))
  | stranded {error : RouteError} (h : Stranded f t rootChip error) :
      Ends f t rootChip (.error error)
  | cutOff {n : NodeId} {c guide : Chip} (hn : t.Below t.root n) (hc : t.chip? n = some c)
      (hlive : f.isChip c = true) (h : ¬ f.Joined rootChip c) :
      Ends f t rootChip (.error (.noLivePath c guide))
  | repaired {r : Repaired} (hlive : f.isChip rootChip = true)
      (hjoined : ∀ n c, t.Below t.root n → t.chip? n = some c → f.isChip c = true →
        f.Joined rootChip c)
      (hdead : ∀ n c, t.Below t.root n → t.chip? n = some c → f.isChip c = false →
        t.endings n = [])
      (h : r.Sound f t)
      (hcount : r.index.size + r.report.dead.length + r.report.pruned =
        t.reachedCount + r.report.added) : Ends f t rootChip (.ok r)

/-- A repair of a proper tree always ends, and in one of four ways. The copy, the detours and the
pruning each contribute theirs. -/
theorem repair_ends (ht : t.IsProper) (hroot : t.chip? t.root = some rootChip) :
    Ends f t rootChip (f.repair t) := by
  cases hlive : f.isChip rootChip with
  | false =>
      have hcut : f.cut t = .error (.deadRoot rootChip) := by simp [Fabric.cut, hroot, hlive]
      rw [repair, hcut]
      exact .dead hlive
  | true =>
      rcases cut_spec ht hroot hlive with ⟨cut, hok, hcut⟩ | ⟨error, herror, hstranded⟩
      · rw [repair, hok]
        rcases mendAll_spec (s := ⟨cut.tree, cut.index, 0, []⟩) hcut hroot (List.Subset.refl _)
          hcut.broken_nodup (mends_cut hcut) with ⟨s, hs, hmends⟩ | ⟨b, hb, herror, hno⟩
        · have hprunes := Prunes.of_mends hmends
          simp only [bind, Except.bind, hs]
          -- A leaf is a parent of a broken edge or lost a kid to a detour, or there were dead
          -- ends before: the first two are the candidates for pruning.
          have hstart : Prunes f cut (fun _ b => b ∈ cut.broken.map (·.1) ++ s.bereft.reverse ∨
              ¬ t.NoDeadEnd) s.tree s.index := hprunes.congr fun {m c} _ _ _ _ hx => by
            rw [List.mem_append, List.mem_reverse]
            by_cases hends : t.NoDeadEnd
            · exact .inl (hx.imp_left fun hb => hb hends)
            · exact .inr hends
          obtain ⟨hpruned, hremoved⟩ := Prunes.foldl (s := ⟨s.tree, s.index, 0⟩) hstart
          refine .repaired hlive (fun n c hn hc hl => ?_) (fun n c => hcut.endings_dead)
            (sound_of_prunes ht hcut hpruned) ?_
          · -- The chip was copied and is below the root at the end, over working links.
            obtain ⟨m, hm⟩ := hcut.copied.2 ⟨hl, n, hn, hc⟩
            have hm := hprunes.kept hm
            have hzero := hprunes.kept (hcut.pieces.indexed.2 (hcut.root_chip.trans hroot))
            exact hmends.pieces.joined_of_below
              (hprunes.indexed.1 (hmends.pieces.indexed.2 hm)).2 hzero hm
          · -- Copied or dead, created by a detour, pruned: each changes the index by as many chips
            -- as are reported.
            have hcopied := hcut.counted
            have hcreated := size_mendAll hs
            simp only at hremoved hcreated ⊢
            omega
        · -- The piece that has no path is on a working chip of the tree.
          obtain ⟨m, -, hm⟩ := hcut.broken_copied b hb
          obtain ⟨hlive, n, hn, hc⟩ := hcut.copied.1 ⟨m, hm⟩
          simp only [bind, Except.bind, herror]
          exact .cutOff hn hc hlive hno
      · rw [repair, herror]
        exact .stranded hstranded

/-- A repair that succeeds gives a sound tree. -/
theorem sound_of_repair (ht : t.IsProper) {r : Repaired} (h : f.repair t = .ok r) :
    r.Sound f t := by
  obtain ⟨c, hc⟩ := RouteTree.exists_chip?_iff.2 (ht.lt_size .refl)
  have hends := repair_ends (f := f) ht hc
  rw [h] at hends
  cases hends with
  | repaired _ _ _ hsound => exact hsound

/-- A repair of a proper tree never visits a chip twice, and what it gives is sound. -/
theorem repair_sound (f : Fabric) (t : RouteTree) (ht : t.IsProper) :
    (∀ c, f.repair t ≠ .error (.revisited c)) ∧ ∀ r, f.repair t = .ok r → r.Sound f t := by
  refine ⟨fun c h => ?_, fun r => sound_of_repair ht⟩
  obtain ⟨rootChip, hroot⟩ := RouteTree.exists_chip?_iff.2 (ht.lt_size .refl)
  have hends := repair_ends (f := f) ht hroot
  rw [h] at hends
  cases hends with
  | stranded hstranded =>
      obtain ⟨_, _, -, -, -, -, heq⟩ := hstranded
      contradiction

/-- A mesh whose first link is dead in one direction. -/
def oneWayMesh : Fabric :=
  (Fabric.intact { width := 3, height := 2, wraps := false }).killLinkOneWay ⟨0, 0⟩ .east

/-- A tree over the first row of the mesh. -/
def rowTree : RouteTree :=
  let middle := (RouteTree.single ⟨0, 0⟩).addChild 0 (some (.link .east)) ⟨1, 0⟩
  let row := middle.addChild 1 (some (.link .east)) ⟨2, 0⟩
  row.addEdge 2 ⟨some (.core 1), .terminal (.core ⟨2, 0⟩ 1)⟩

/-- The row is a tree a repair may be given. -/
theorem isProper_rowTree : rowTree.IsProper :=
  RouteTree.isProper_of_row (by decide) (by decide) (by decide) (by decide) (by decide)

/-- The repair leads around the dead direction. -/
theorem rowTree_repaired : ∃ r, oneWayMesh.repair rowTree = .ok r ∧ r.Sound oneWayMesh rowTree := by
  have hok : (oneWayMesh.repair rowTree).isOk = true := by decide +kernel
  cases h : oneWayMesh.repair rowTree with
  | error e =>
      rw [h] at hok
      contradiction
  | ok r => exact ⟨r, rfl, (repair_sound oneWayMesh rowTree isProper_rowTree).2 r h⟩

end Fabric

end Multicast
