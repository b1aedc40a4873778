import Mathlib.Algebra.Order.Field.Rat
import Mathlib.Tactic.Linarith
import Mathlib.Tactic.Positivity
import Multicast.Proofs.Cost.Commit

/-!
# `Multicast.Proofs.Cost.Pressure`: a link costs at least one hop

Costs are read as exact numbers here. Each of the two pressures is the inverse of what is free
less the inverse of the most there is, so it is not negative as long as no more is free than that.
The most is taken over the working chips and their links, which is enough for links between
working chips: whatever was committed, such a link costs at least `k` where it can be crossed at
all (`CostRouter.Committed.le_linkCost`). Of a dead chip nothing of the kind is known, since it
may hold more than any working one.
-/

set_option autoImplicit false

namespace Multicast

/-! ### Exact numbers -/

namespace Quantity

/-- Zero is zero. -/
@[simp] theorem zero_rat : (zero : Rat) = 0 := rfl

/-- Whole numbers are taken as they are. -/
@[simp] theorem ofNat_rat (n : Nat) : (ofNat n : Rat) = n := rfl

/-- Costs are added exactly, where floats would be rounded. -/
@[simp] theorem add_rat (a b : Rat) : add a b = a + b := rfl

/-- Costs are subtracted exactly. -/
@[simp] theorem sub_rat (a b : Rat) : sub a b = a - b := rfl

/-- Coefficients are multiplied exactly. -/
@[simp] theorem mul_rat (a b : Rat) : mul a b = a * b := rfl

/-- Exact numbers compare as numbers do, and any two of them can be compared. -/
@[simp] theorem lt_rat (a b : Rat) : lt a b = decide (a < b) := rfl

/-- At most is the comparison of numbers too. Of floats that are not numbers it would be false
either way round. -/
@[simp] theorem le_rat (a b : Rat) : le a b = decide (a ≤ b) := rfl

/-- Two exact costs are equal when they are one number. -/
@[simp] theorem eq_rat (a b : Rat) : eq a b = decide (a = b) := rfl

/-- The inverse is an exact fraction. -/
@[simp] theorem inverse_rat (a : Rat) : inverse a = 1 / a := by
  show ((1 : Nat) : Rat) / a = 1 / a
  rw [Nat.cast_one]

/-- The larger of two exact numbers is their maximum, so the lemmas on bounds apply to what the
router computes. -/
theorem larger_rat (a b : Rat) : larger a b = max a b := by
  simp only [larger, lt_rat, decide_eq_true_eq]
  split
  · next hlt => exact (max_eq_right hlt.le).symm
  · next hlt => exact (max_eq_left (not_lt.1 hlt)).symm

end Quantity

/-- The coefficients pass their check when the cost of a hop is positive and no other coefficient is
negative. All bounds on costs come from this. -/
theorem Weights.fault?_rat {w : Weights Rat} :
    w.fault? = none ↔ 0 < w.k ∧ 0 ≤ w.l ∧ 0 ≤ w.m ∧ 0 ≤ w.perRoute := by
  by_cases hk : 0 < w.k
  · simp [fault?, hk, and_assoc]
  · simp [fault?, hk]

namespace CostRouter

/-- A fold that only ever grows ends no lower than it began, and no lower than anything it met. Both
maxima of a machine are folds of this kind. -/
theorem le_foldl {α β : Type} [Preorder β] {step : β → α → β} (hgrow : ∀ b a, b ≤ step b a)
    (list : List α) (b : β) :
    b ≤ list.foldl step b ∧ ∀ {a v}, a ∈ list → (∀ b, v ≤ step b a) → v ≤ list.foldl step b := by
  induction list generalizing b with
  | nil => exact ⟨le_refl b, by simp⟩
  | cons first rest ih =>
      obtain ⟨hstart, hmet⟩ := ih (step b first)
      refine ⟨(hgrow b first).trans hstart, ?_⟩
      intro a v ha hv
      rcases List.mem_cons.1 ha with rfl | ha
      · exact (hv b).trans hstart
      · exact hmet ha hv

/-- No working chip has room for more entries than the maximum over the machine, so the share of its
entries in use is never above one. -/
theorem entries_le_most {ν : Type} {m : Machine ν} {c : Chip} (hc : m.isChip c = true) :
    m.entries c ≤ mostEntries m := by
  rw [mostEntries, Fabric.foldChips_eq]
  exact (le_foldl (fun _ _ => Nat.le_max_left _ _) m.chips 0).2 (Fabric.mem_chips.2 hc)
    fun _ => Nat.le_max_right _ _

/-- No link of a working chip has more bandwidth than the maximum over the machine. -/
theorem bandwidth_le_most {m : Machine Rat} {c : Chip} (hc : m.isChip c = true) (d : Direction) :
    m.bandwidth c d ≤ mostBandwidth m := by
  have hlink : ∀ (c : Chip) (b : Rat) (d : Direction), b ≤ Quantity.larger b (m.bandwidth c d) := by
    intro c b d
    rw [Quantity.larger_rat]
    exact le_max_left _ _
  rw [mostBandwidth, Fabric.foldChips_eq]
  refine (le_foldl (fun b c => (le_foldl (hlink c) Direction.all b).1) m.chips _).2
    (Fabric.mem_chips.2 hc) fun b => ?_
  refine (le_foldl (hlink c) Direction.all b).2 d.mem_all fun b => ?_
  rw [Quantity.larger_rat]
  exact le_max_right _ _

/-- Pressure is not negative where something is free, and no more than the most. -/
theorem pressure_nonneg {free most : Rat} (hfree : 0 < free) (hmost : free ≤ most) :
    0 ≤ pressure free most := by
  have hinv : 1 / most ≤ 1 / free := one_div_le_one_div_of_le hfree hmost
  simp only [pressure, Quantity.sub_rat, Quantity.inverse_rat]
  linarith

/-- What is counted for links never gets negative. By induction on the commits, over what every
count keeps (`commit_keeps`). -/
theorem Committed.bandwidthUsed_nonneg {m : Machine Rat} {w : Weights Rat} {r : CostRouter Rat}
    (h : Committed m w r) (c : Chip) (d : Direction) : 0 ≤ r.bandwidthUsed c d := by
  -- Each count adds what a route takes, which is not negative either.
  suffices hkept : 0 ≤ r.weights.perRoute ∧ ∀ c d, 0 ≤ r.bandwidthUsed c d from hkept.2 c d
  induction h with
  | created h =>
      obtain ⟨hfault, rfl⟩ := create_eq_ok.1 h
      refine ⟨(Weights.fault?_rat.1 hfault).2.2.2, fun c d => ?_⟩
      simp [bandwidthUsed]
  | @commit r _ t ih =>
      refine commit_keeps
        (P := fun r : CostRouter Rat => 0 ≤ r.weights.perRoute ∧ ∀ c d, 0 ≤ r.bandwidthUsed c d)
        (fun _ _ h => h) ?_ t ih
      rintro r c d ⟨hroute, hused⟩
      refine ⟨hroute, fun b x => ?_⟩
      have hsum : 0 ≤ r.bandwidthUsed c d + r.weights.perRoute := add_nonneg (hused c d) hroute
      simp only [bandwidthUsed, useLink, Std.ExtTreeMap.getD_insert, Quantity.add_rat]
        at hused hsum ⊢
      split
      · exact hsum
      · exact hused b x

section

variable {m : Machine Rat} {w : Weights Rat} {r : CostRouter Rat} {a c : Chip} {d : Direction}
  {cost total : Rat}

/-- The table of a working chip adds nothing negative to a cost. Where an entry is free, no more are
free than the most there are anywhere, and the pressure is not negative. -/
theorem Committed.le_addTablePressure (h : Committed m w r) (hc : m.isChip c = true)
    (htotal : r.addTablePressure c cost = some total) : cost ≤ total := by
  obtain ⟨hfault, rfl, rfl, hmost, -⟩ := h.terms
  obtain ⟨-, hl, -, -⟩ := Weights.fault?_rat.1 hfault
  unfold addTablePressure at htotal
  split at htotal
  · exact (Option.some.inj htotal).le
  · dsimp only at htotal
    split at htotal
    · next hroom =>
      obtain rfl := Option.some.inj htotal
      have hfree : 0 < r.machine.entries c - r.usedEntries.getD c 0 := Nat.sub_pos_of_lt hroom
      have hle : r.machine.entries c - r.usedEntries.getD c 0 ≤ mostEntries r.machine :=
        (Nat.sub_le _ _).trans (entries_le_most hc)
      rw [hmost]
      simp only [Quantity.add_rat, Quantity.mul_rat, Quantity.ofNat_rat]
      have := mul_nonneg hl (pressure_nonneg (Nat.cast_pos.2 hfree) (Nat.cast_le.2 hle))
      linarith
    · contradiction

/-- A link of a working chip adds nothing negative to a cost. What is free of a link is no more than
the most there is, because what is used is not negative. -/
theorem Committed.le_addLinkPressure (h : Committed m w r) (ha : m.isChip a = true)
    (htotal : r.addLinkPressure a d cost = some total) : cost ≤ total := by
  have hused := h.bandwidthUsed_nonneg a d
  obtain ⟨hfault, rfl, rfl, -, hmost⟩ := h.terms
  obtain ⟨-, -, hm, -⟩ := Weights.fault?_rat.1 hfault
  unfold addLinkPressure at htotal
  split at htotal
  · exact (Option.some.inj htotal).le
  · dsimp only at htotal
    split at htotal
    · contradiction
    · next hroom =>
      obtain rfl := Option.some.inj htotal
      have hfree : 0 < r.freeBandwidth a d := by simpa using hroom
      have hle : r.freeBandwidth a d ≤ r.maxBandwidth := by
        have := bandwidth_le_most ha d
        rw [hmost]
        simp only [freeBandwidth, Quantity.sub_rat]
        linarith
      have := mul_nonneg hm (pressure_nonneg hfree hle)
      simp only [Quantity.add_rat, Quantity.mul_rat]
      linarith

/-- Crossing a link between working chips costs at least one hop, whatever was committed. -/
theorem Committed.le_linkCost (h : Committed m w r) (ha : m.isChip a = true)
    (hc : m.isChip c = true) (hcost : r.linkCost a d c = some cost) : w.k ≤ cost := by
  obtain ⟨between, hbetween, htotal⟩ := Option.bind_eq_some_iff.1 hcost
  have hk : r.weights.k ≤ between := h.le_addTablePressure hc hbetween
  rw [h.terms.2.2.1] at hk
  exact hk.trans (h.le_addLinkPressure ha htotal)

end

end CostRouter

end Multicast
