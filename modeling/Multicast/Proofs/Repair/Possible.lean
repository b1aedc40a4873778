import Multicast.Proofs.Repair.Repair

/-!
# `Multicast.Proofs.Repair.Possible`: when a tree can be repaired

Cut-off pieces are led back one at a time, each to a tree that the pieces before it have
changed, and a detour may hang a piece under another one that is itself still cut off. That
this order neither gets stuck nor reports a way that is not there is what `Fabric.repair_ends`
says. Here it is put the way a caller can check: `Fabric.Holds` asks for two things, that no
endpoint hangs off a dead chip and that paths over working links lead from the root to every
working chip of the tree, and a repair succeeds exactly then (`Fabric.repair_possible_iff`).
-/

set_option autoImplicit false

namespace Multicast.Fabric

variable {f : Fabric} {t : RouteTree} {rootChip : Chip}

/-- The machine can hold a tree: no endpoint hangs off a dead chip, and paths over working links
lead from the root to every working chip. -/
structure Holds (f : Fabric) (t : RouteTree) (rootChip : Chip) : Prop where
  terminals : ∀ x ∈ t.terminals, f.isChip x.chip = true
  chips : ∀ c ∈ t.reachedChips, f.isChip c = true → f.Joined rootChip c

/-- On a machine that holds the tree nothing hangs off a node on a dead chip. -/
theorem Holds.endings_eq_nil (h : f.Holds t rootChip) (ht : t.IsProper) {n : NodeId} {c : Chip}
    (hn : t.Below t.root n) (hc : t.chip? n = some c) (hdead : f.isChip c = false) :
    t.endings n = [] := by
  refine List.eq_nil_iff_forall_not_mem.2 ?_
  rintro ⟨route, e⟩ hmem
  have hlive := h.terminals ⟨c, route, e⟩ (ht.mem_terminals.2 ⟨n, hn, hc, hmem⟩)
  rw [hdead] at hlive
  contradiction

/-- A proper tree on a working root chip is repaired exactly when the machine can hold it; in every
other case the error is that there is no live path. -/
theorem repair_possible_iff (f : Fabric) (t : RouteTree) (rootChip : Chip) (ht : t.IsProper)
    (hroot : t.chip? t.root = some rootChip) (hlive : f.isChip rootChip = true) :
    ((∃ r, f.repair t = .ok r) ↔ f.Holds t rootChip) ∧
      ∀ error, f.repair t = .error error → ∃ a b, error = .noLivePath a b := by
  have hends := repair_ends (f := f) ht hroot
  generalize f.repair t = result at hends
  -- A failure goes with a tree that cannot be held, and it is always the same kind of error.
  have hfail : ∀ {a b : Chip}, result = .error (.noLivePath a b) → ¬ f.Holds t rootChip →
      ((∃ r, result = .ok r) ↔ f.Holds t rootChip) ∧
        ∀ error, result = .error error → ∃ a b, error = .noLivePath a b := by
    rintro a b rfl hno
    refine ⟨⟨?_, fun hholds => absurd hholds hno⟩, ?_⟩
    · rintro ⟨r, hr⟩
      contradiction
    · intro error heq
      exact ⟨a, b, (Except.error.inj heq).symm⟩
  cases hends with
  | dead hdead =>
      rw [hlive] at hdead
      contradiction
  | stranded hstranded =>
      obtain ⟨n, c, hn, hc, hdead, hne, rfl⟩ := hstranded
      exact hfail rfl fun hholds => hne (hholds.endings_eq_nil ht hn hc hdead)
  | cutOff hn hc hl hno =>
      exact hfail rfl fun hholds =>
        hno (hholds.chips _ (ht.mem_reachedChips.2 ⟨_, hn, hc⟩) hl)
  | repaired _ hjoined hdead _ =>
      refine ⟨iff_of_true ⟨_, rfl⟩ ⟨?_, ?_⟩, ?_⟩
      · intro x hx
        obtain ⟨n, hn, hc, hmem⟩ := ht.mem_terminals.1 hx
        by_contra hx
        rw [hdead n x.chip hn hc (by simpa using hx)] at hmem
        contradiction
      · intro c hc hl
        obtain ⟨n, hn, hnc⟩ := ht.mem_reachedChips.1 hc
        exact hjoined n c hn hnc hl
      · intro error heq
        contradiction

/-- The mesh without the links between its second and its third column. -/
def splitMesh : Fabric :=
  let cuts : List Port := [⟨⟨1, 0⟩, .east⟩, ⟨⟨1, 0⟩, .northEast⟩, ⟨⟨1, 1⟩, .east⟩]
  cuts.foldl (fun f port => f.killLink port.chip port.link) oneWayMesh

/-- Where the row can be led around its dead link it is; where its end is split off there is no
path to it. -/
theorem rowTree_possible :
    ((∃ r, oneWayMesh.repair rowTree = .ok r) ∧ oneWayMesh.Holds rowTree ⟨0, 0⟩) ∧
    (∃ a b, splitMesh.repair rowTree = .error (.noLivePath a b)) ∧
      ¬ splitMesh.Holds rowTree ⟨0, 0⟩ := by
  constructor
  · obtain ⟨hiff, -⟩ := repair_possible_iff oneWayMesh rowTree ⟨0, 0⟩ isProper_rowTree rfl
      (by decide +kernel)
    have hok := exists_of_isOk (show (oneWayMesh.repair rowTree).isOk = true by decide +kernel)
    exact ⟨hok, hiff.1 hok⟩
  · obtain ⟨hiff, herror⟩ := repair_possible_iff splitMesh rowTree ⟨0, 0⟩ isProper_rowTree rfl
      (by decide +kernel)
    have hfails : (splitMesh.repair rowTree).isOk = false := by decide +kernel
    cases h : splitMesh.repair rowTree with
    | ok r =>
        rw [h] at hfails
        contradiction
    | error error =>
        obtain ⟨a, b, rfl⟩ := herror error h
        refine ⟨⟨a, b, rfl⟩, fun hholds => ?_⟩
        obtain ⟨r, hr⟩ := hiff.2 hholds
        rw [h] at hr
        contradiction

end Multicast.Fabric
