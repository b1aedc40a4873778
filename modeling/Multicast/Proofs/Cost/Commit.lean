import Mathlib.Data.List.Count
import Multicast.Cost.Router

/-!
# `Multicast.Proofs.Cost.Commit`: what committing a tree changes

A commit counts chip by chip and link by link, so whatever one count keeps a whole commit keeps
(`CostRouter.commit_keeps`): the machine, the coefficients and the maxima above all
(`SameTerms`). What is counted for a chip is the number of nodes the tree has on it
(`usedEntries_commit`).

`Committed` are the routers a machine can have come to: created for it, and then any trees
committed, also ones that no router made.
-/

set_option autoImplicit false

namespace Multicast.CostRouter

variable {ν : Type} [Quantity ν] {r : CostRouter ν} {m : Machine ν} {w : Weights ν}

/-- A router of a machine on which any trees were committed. -/
inductive Committed (m : Machine ν) (w : Weights ν) : CostRouter ν → Prop
  | created {r : CostRouter ν} (h : create m w = .ok r) : Committed m w r
  | commit {r : CostRouter ν} (h : Committed m w r) (t : RouteTree) : Committed m w (r.commit t)

/-- A router is created for every machine whose coefficients pass their check. Nothing is counted in
it yet, and the maxima that pressures refer to are taken from the machine once. -/
theorem create_eq_ok : create m w = .ok r ↔ w.fault? = none ∧
    r = ⟨m, w, ∅, ∅, Quantity.ofNat (mostEntries m), mostBandwidth m⟩ := by
  unfold create
  cases w.fault? with
  | some fault => simp
  | none => simp [eq_comm]

/-- A router is made of the maxima of its machine. -/
theorem create_of_most {n : Nat} {b : ν} (hfault : w.fault? = none) (hentries : mostEntries m = n)
    (hbandwidth : mostBandwidth m = b) :
    create m w = .ok ⟨m, w, ∅, ∅, Quantity.ofNat n, b⟩ := by
  rw [create_eq_ok, hentries, hbandwidth]
  exact ⟨hfault, rfl⟩

/-- A router that was created works on the machine it was created for. -/
theorem machine_of_create (h : create m w = .ok r) : r.machine = m := by
  rw [(create_eq_ok.1 h).2]

/-- What every count of a chip and of a link keeps is kept by all counts of a node. -/
theorem useNode_keeps {P : CostRouter ν → Prop} (hchip : ∀ r c, P r → P (useChip r c))
    (hlink : ∀ r c d, P r → P (useLink r c d)) (t : RouteTree) (n : NodeId) (h : P r) :
    P (useNode t r n) := by
  unfold useNode
  split
  · exact h
  · next c _ =>
    refine List.foldlRecOn _ _ (hchip r c h) fun counted hcounted e _ => ?_
    split
    · exact hlink _ _ _ hcounted
    · exact hcounted

/-- What every count of a chip and of a link keeps is kept by a commit. -/
theorem commit_keeps {P : CostRouter ν → Prop} (hchip : ∀ r c, P r → P (useChip r c))
    (hlink : ∀ r c d, P r → P (useLink r c d)) (t : RouteTree) (h : P r) : P (r.commit t) := by
  unfold commit
  exact List.foldlRecOn _ _ h fun counted hcounted n _ => useNode_keeps hchip hlink t n hcounted

/-- Two routers of one machine that differ in nothing but in what is counted. -/
structure SameTerms (r r' : CostRouter ν) : Prop where
  machine : r'.machine = r.machine
  weights : r'.weights = r.weights
  maxEntries : r'.maxEntries = r.maxEntries
  maxBandwidth : r'.maxBandwidth = r.maxBandwidth

/-- A commit changes nothing but what is counted. -/
theorem sameTerms_commit (r : CostRouter ν) (t : RouteTree) : r.SameTerms (r.commit t) :=
  commit_keeps (fun _ _ h => ⟨h.1, h.2, h.3, h.4⟩) (fun _ _ _ h => ⟨h.1, h.2, h.3, h.4⟩) t
    ⟨rfl, rfl, rfl, rfl⟩

/-- No commit changes the machine, so what working links there are is the same for all nets of a
run. -/
theorem commit_machine (r : CostRouter ν) (t : RouteTree) : (r.commit t).machine = r.machine :=
  (r.sameTerms_commit t).machine

/-- A router a machine came to has its terms from the machine and the coefficients. -/
theorem Committed.terms (h : Committed m w r) : w.fault? = none ∧ r.machine = m ∧ r.weights = w ∧
    r.maxEntries = Quantity.ofNat (mostEntries m) ∧ r.maxBandwidth = mostBandwidth m := by
  induction h with
  | created h =>
      obtain ⟨hfault, rfl⟩ := create_eq_ok.1 h
      exact ⟨hfault, rfl, rfl, rfl, rfl⟩
  | @commit r _ t ih =>
      have hsame := r.sameTerms_commit t
      rw [hsame.machine, hsame.weights, hsame.maxEntries, hsame.maxBandwidth]
      exact ih

/-! ### Entries -/

omit [Quantity ν] in
/-- One more entry is counted on the chip, and no other count is touched. -/
theorem usedEntries_useChip (r : CostRouter ν) (b c : Chip) :
    (r.useChip b).usedEntries.getD c 0 = r.usedEntries.getD c 0 + if b = c then 1 else 0 := by
  rw [useChip, Std.ExtTreeMap.getD_insert]
  simp only [Std.LawfulEqOrd.compare_eq_iff_eq]
  split
  · next hbc => rw [hbc]
  · rfl

/-- A node counts one entry on its chip. -/
theorem usedEntries_useNode (t : RouteTree) (r : CostRouter ν) (n : NodeId) (c : Chip) :
    (useNode t r n).usedEntries.getD c 0 =
      r.usedEntries.getD c 0 + if t.chip? n = some c then 1 else 0 := by
  unfold useNode
  split
  · next hnone => simp [hnone]
  · next b hb =>
    simp only [hb, Option.some.injEq, ← usedEntries_useChip]
    -- Links take nothing from the tables.
    refine List.foldlRecOn (motive := fun counted : CostRouter ν =>
      counted.usedEntries.getD c 0 = (r.useChip b).usedEntries.getD c 0) _ _ rfl
      fun counted hcounted e _ => ?_
    split
    · exact hcounted
    · exact hcounted

/-- A tree counts as many entries on a chip as it has nodes there. -/
theorem usedEntries_commit (r : CostRouter ν) (t : RouteTree) (c : Chip) :
    (r.commit t).usedEntries.getD c 0 = r.usedEntries.getD c 0 + t.reachedChips.count c := by
  unfold commit RouteTree.reachedChips
  induction t.reached generalizing r with
  | nil => rfl
  | cons n rest ih =>
      rw [List.foldl_cons, ih, usedEntries_useNode, List.filterMap_cons, Nat.add_assoc]
      cases t.chip? n with
      | none => simp
      | some b => simp only [Option.some.injEq, List.count_cons, beq_iff_eq, Nat.add_comm]

end Multicast.CostRouter
