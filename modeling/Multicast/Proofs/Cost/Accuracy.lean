import Mathlib.Tactic.Ring
import Multicast.Proofs.Cost.Relax
import Multicast.Proofs.Cost.Retrace

/-!
# `Multicast.Proofs.Cost.Accuracy`: tracing paths back up to a tolerance

Tracing back takes the first neighbour whose cost explains that of the chip up to a fixed
tolerance, not the one that set it. Each hop is therefore off by less than the tolerance, and a
whole path by no more than that times its hops (`exists_leads_of_follows`).

Whether the source is reached is another matter. With exact costs the neighbour that set the cost
explains it, so there always is one (`exists_explained`). If a hop costs at least the tolerance,
every chip that explains a cost has a smaller one (`Explained.lt`), and since no chip is passed
twice the path ends before the bound. If a hop costs less than that, two neighbours of equal cost
explain each other: on `tightMesh`, where all links cost one hop, two chips beside the source do
so for ever. So paths are always found for the coefficients whose `k` is no smaller than the
tolerance, and for no others (`paths_complete_iff`).
-/

set_option autoImplicit false

namespace Multicast

namespace Quantity

/-- In exact arithmetic the tolerance is a billionth. -/
theorem tolerance_rat : (tolerance : Rat) = 1 / 1000000000 := rfl

/-- The absolute value the router computes is that of the library, so its lemmas apply. -/
@[simp] theorem abs_rat (a : Rat) : abs a = |a| := by
  show (if 0 ≤ a then a else -a) = |a|
  split
  · next hnonneg => exact (abs_of_nonneg hnonneg).symm
  · next hneg => exact (abs_of_nonpos (le_of_not_ge hneg)).symm

/-- A cost is always within the tolerance of itself. -/
theorem tolerance_pos : (0 : Rat) < tolerance := by
  rw [tolerance_rat]
  norm_num

end Quantity

namespace CostRouter

variable {m : Machine Rat} {weights : Weights Rat} {r : CostRouter Rat} {source a c : Chip}
  {d : Direction} {p q total k w : Rat} {hops found : List Hop}
  {costs : Std.ExtTreeMap Chip Rat} {destinations : List Chip}

/-! ### Costs along a path -/

/-- Where no link has a negative cost no path has one, so going on never makes a path cheaper. -/
theorem Leads.nonneg (h : r.Leads source hops c total) (hnonneg : r.CostsAtLeast 0) :
    0 ≤ total := by
  induction h with
  | start => exact le_rfl
  | hop _ hlink hcost ih => exact add_nonneg ih (hnonneg hlink hcost)

/-- A path away from the source costs at least one hop. -/
theorem Leads.le_total (h : r.Leads source hops c total) (hk : r.CostsAtLeast k) (hnonneg : 0 ≤ k)
    (hc : c ≠ source) : k ≤ total := by
  cases h with
  | start => contradiction
  | hop h hlink hcost =>
      exact (hk hlink hcost).trans (le_add_of_nonneg_left (h.nonneg (hk.mono hnonneg)))

/-- The source costs nothing. The path without hops costs nothing, and none costs less. -/
theorem Cheapest.source_eq_zero (h : r.Cheapest source costs) (hnonneg : r.CostsAtLeast 0)
    (hq : costs[source]? = some q) : q = 0 := by
  obtain ⟨⟨hops, hleads⟩, hle⟩ := h.least hq
  exact le_antisymm (hle (r.zero_mem_totals source)) (hleads.nonneg hnonneg)

/-- What explains a cost is a neighbour whose cost with that of the link is off by less than the
tolerance. -/
theorem explained_iff : r.Explained costs c q d a ↔ r.machine.follow? a d = some c ∧
    ∃ p w, costs[a]? = some p ∧ r.linkCost a d c = some w ∧ |q - w - p| < Quantity.tolerance := by
  constructor
  · rintro ⟨hlink, p, w, hp, hw, hclose⟩
    exact ⟨hlink, p, w, hp, hw, by simpa using hclose⟩
  · rintro ⟨hlink, p, w, hp, hw, hclose⟩
    exact ⟨hlink, p, w, hp, hw, by simpa using hclose⟩

/-- The hops traced back to a chip are a path whose total is off the cost of the chip by no more
than the tolerance for each of them. By induction on the hops from the last one, with the triangle
inequality for the error. -/
theorem exists_leads_of_follows (hcosts : r.Cheapest source costs) (hnonneg : r.CostsAtLeast 0)
    (h : Follows (r.before? costs source) source hops c) (hq : costs[c]? = some q) :
    ∃ total, r.Leads source hops c total ∧ |total - q| ≤ hops.length * Quantity.tolerance := by
  -- On the hops from the last one: each adds the cost of its link and one error.
  induction hops using List.reverseRecOn generalizing c q with
  | nil =>
      obtain rfl : source = c := h
      obtain rfl := hcosts.source_eq_zero hnonneg hq
      exact ⟨0, .start, by simp⟩
  | append_singleton init hop ih =>
      obtain ⟨a, hinit, hbefore, rfl⟩ := Follows.snoc.1 h
      obtain ⟨q', hq', hexplained⟩ := explained_of_before? hbefore
      obtain rfl := Option.some.inj (hq.symm.trans hq')
      obtain ⟨hlink, p, w, hp, hw, hclose⟩ := explained_iff.1 hexplained
      obtain ⟨total, hleads, herror⟩ := ih hinit hp
      refine ⟨total + w, hleads.hop hlink hw, ?_⟩
      calc |total + w - q| = |(total - p) - (q - w - p)| := by congr 1; ring
        _ ≤ |total - p| + |q - w - p| := abs_sub _ _
        _ ≤ init.length * Quantity.tolerance + Quantity.tolerance := add_le_add herror hclose.le
        _ = (init ++ [hop]).length * Quantity.tolerance := by
          rw [List.length_append, List.length_singleton]
          push_cast
          ring

/-! ### Hops no cheaper than the tolerance -/

/-- The last link of a cheapest path explains the cost of its end. The chip before the last has a
cost of its own, since paths to it are cheaper. That cost is the one on this path, or going on from
a cheaper path would undercut the cost of the end. -/
theorem exists_explained (hcosts : r.Cheapest source costs) (hk : r.CostsAtLeast k)
    (hpos : 0 < k) (hq : costs[c]? = some q) (hc : c ≠ source) :
    ∃ d a, r.Explained costs c q d a := by
  obtain ⟨⟨hops, hleads⟩, hle⟩ := hcosts.least hq
  cases hleads with
  | start => contradiction
  | @hop hops a c d total w hleads hlink hcost =>
      have hw : 0 < w := hpos.trans_le (hk hlink hcost)
      have ha : a ∈ costs := hcosts.nearer hq ⟨hops, hleads⟩ (lt_add_of_pos_right total hw)
      obtain ⟨p, hp⟩ := mem_iff_exists_cost.1 ha
      obtain ⟨hpaid, hsmallest⟩ := hcosts.least hp
      -- No path to the chip before is cheaper, or there were a cheaper one to its end.
      have heq : p = total := le_antisymm (hsmallest ⟨hops, hleads⟩)
        ((add_le_add_iff_right w).1 (hle (add_mem_totals hpaid hlink hcost)))
      refine ⟨d, a, explained_iff.2 ⟨hlink, p, w, hp, hcost, ?_⟩⟩
      rw [heq, add_sub_cancel_right, sub_self, abs_zero]
      exact Quantity.tolerance_pos

/-- If hops cost at least the tolerance, what explains a cost has a smaller one. This is where the
tolerance matters: what is off by less than a hop still leads downwards. -/
theorem Explained.lt (h : r.Explained costs c q d a) (hk : r.CostsAtLeast k)
    (htolerance : Quantity.tolerance ≤ k) : ∃ p, costs[a]? = some p ∧ p < q := by
  obtain ⟨hlink, p, w, hp, hw, hclose⟩ := explained_iff.1 h
  have hkw := hk hlink hw
  have hbelow := (abs_lt.1 hclose).1
  exact ⟨p, hp, by linarith⟩

/-- The hops found so far lead to different chips, all of them with a cost above the one at
hand. -/
structure Ahead (costs : Std.ExtTreeMap Chip Rat) (q : Rat) (found : List Hop) : Prop where
  nodup : (found.map (·.chip)).Nodup
  above : ∀ hop ∈ found, ∃ p, costs[hop.chip]? = some p ∧ q < p

/-- At the destination itself no hop has been found, and nothing has to lie ahead of it. -/
theorem ahead_nil (costs : Std.ExtTreeMap Chip Rat) (q : Rat) : Ahead costs q [] :=
  ⟨List.nodup_nil, by simp⟩

/-- There are no more hops ahead than costs. They lead to different chips, all of which have a
cost. -/
theorem Ahead.length_le (h : Ahead costs q found) : found.length ≤ costs.size := by
  have hsub : found.map (·.chip) ⊆ costs.keys := by
    intro b hb
    obtain ⟨hop, hhop, rfl⟩ := List.mem_map.1 hb
    obtain ⟨p, hp, -⟩ := h.above hop hhop
    exact Std.ExtTreeMap.mem_keys.2 (mem_iff_exists_cost.2 ⟨p, hp⟩)
  have hlength := (h.nodup.subperm hsub).length_le
  rwa [List.length_map, Std.ExtTreeMap.length_keys] at hlength

/-- A step back to a smaller cost puts one more hop ahead. The chip stepped back from has not been
met before, since all that were met cost more than it. -/
theorem Ahead.cons (h : Ahead costs q found) (hq : costs[c]? = some q) (hlt : p < q) :
    Ahead costs p (⟨d, c⟩ :: found) := by
  constructor
  · refine List.nodup_cons.2 ⟨fun hmem => ?_, h.nodup⟩
    obtain ⟨hop, hhop, heq⟩ := List.mem_map.1 hmem
    obtain ⟨p', hp', hlt'⟩ := h.above hop hhop
    rw [heq, hq] at hp'
    exact hlt'.ne (Option.some.inj hp')
  · refine List.forall_mem_cons.2 ⟨⟨q, hq, hlt⟩, fun hop hhop => ?_⟩
    obtain ⟨p', hp', hlt'⟩ := h.above hop hhop
    exact ⟨p', hp', hlt.trans hlt'⟩

section

variable (hcosts : r.Cheapest source costs) (hk : r.CostsAtLeast k)
  (htolerance : Quantity.tolerance ≤ k)
include hcosts hk htolerance

/-- Then there is a step back from every chip but the source, to a smaller cost. The cost of the
chip is explained by the last link of its cheapest path, perhaps also by others, and the step goes
to the first that explains it. Whichever that is, its cost is smaller. -/
theorem exists_backStep (hq : costs[c]? = some q) (hc : c ≠ source) :
    ∃ d a p, r.backStep costs source c = .ok (d, a) ∧ costs[a]? = some p ∧ p < q := by
  have hpos : 0 < k := Quantity.tolerance_pos.trans_le htolerance
  obtain ⟨d, a, hexplained⟩ := exists_explained hcosts hk hpos hq hc
  obtain ⟨⟨d, a⟩, hstep⟩ := hexplained.exists_predecessor?
  obtain ⟨⟨steps, hleads⟩, -⟩ := hcosts.least hq
  have hne : q ≠ 0 := (hpos.trans_le (hleads.le_total hk hpos.le hc)).ne'
  obtain ⟨p, hp, hlt⟩ := (explained_of_predecessor? hstep).lt hk htolerance
  exact ⟨d, a, p, backStep_eq_ok.2 ⟨q, hq, by simpa using hne, hstep⟩, hp, hlt⟩

/-- Then tracing back comes to the source before the bound. By induction on the steps left. Each
step puts one more hop ahead, and there are no more of these than costs. -/
theorem exists_retraceFrom (hq : costs[c]? = some q) (hahead : Ahead costs q found) {bound : Nat}
    (hbound : costs.size < found.length + bound) :
    ∃ hops, r.retraceFrom costs source bound c found = .ok hops := by
  induction bound generalizing c q found with
  | zero => exact absurd hahead.length_le (by omega)
  | succ bound ih =>
      rw [retraceFrom]
      split
      · exact ⟨found, rfl⟩
      · next hc =>
        obtain ⟨d, a, p, hback, hp, hlt⟩ := exists_backStep hcosts hk htolerance hq hc
        simp only [hback]
        exact ih hp (hahead.cons hq hlt) (by rw [List.length_cons]; omega)

/-- Then all paths are found. -/
theorem exists_retraceAll (hall : ∀ c ∈ destinations, c ∈ costs) :
    ∃ paths, r.retraceAll costs source destinations = .ok paths := by
  induction destinations with
  | nil => exact ⟨[], rfl⟩
  | cons c rest ih =>
      obtain ⟨hc, hrest⟩ := List.forall_mem_cons.1 hall
      obtain ⟨q, hq⟩ := mem_iff_exists_cost.1 hc
      obtain ⟨hops, hhops⟩ := exists_retraceFrom hcosts hk htolerance hq (ahead_nil costs q)
        (show costs.size < 0 + (costs.size + 1) by omega)
      obtain ⟨paths, hpaths⟩ := ih hrest
      exact ⟨(c, hops) :: paths, bind_eq_ok.2 ⟨hops, hhops, bind_eq_ok.2 ⟨paths, hpaths, rfl⟩⟩⟩

end

/-! ### Hops cheaper than the tolerance -/

/-- Four chips with one entry each and links that one tree fills. -/
def tightMesh : Machine Rat :=
  .uniform (.intact { width := 2, height := 2, wraps := false }) 1 1

/-- The mesh with nothing committed. -/
def tightRouter (weights : Weights Rat) : CostRouter Rat :=
  ⟨tightMesh, weights, ∅, ∅, 1, 1⟩

/-- The router of the tight mesh is one that its machine can create, before any tree is committed. -/
theorem committed_tightRouter (h : weights.fault? = none) :
    Committed tightMesh weights (tightRouter weights) :=
  .created (create_of_most (n := 1) h (by decide +kernel) (by decide +kernel))

/-- All that there is of anything is free, so there is no pressure. -/
theorem linkCost_tightRouter (weights : Weights Rat) (a : Chip) (d : Direction) (c : Chip) :
    (tightRouter weights).linkCost a d c = some weights.k := by
  simp [linkCost, addTablePressure, addLinkPressure, freeBandwidth, bandwidthUsed, pressure,
    tightRouter, tightMesh, Machine.uniform]

/-- A chip beside another one is reached at the cost of one hop. No path is cheaper than one hop,
and there is a path of one hop. -/
theorem cost_beside (hcosts : (tightRouter weights).Cheapest source costs)
    (hfault : weights.fault? = none) (hlink : tightMesh.follow? source d = some c)
    (hc : c ≠ source) (hq : costs[c]? = some q) : q = weights.k := by
  have hrouter := committed_tightRouter hfault
  obtain ⟨⟨hops, hleads⟩, hle⟩ := hcosts.least hq
  have hpos : 0 < weights.k := (Weights.fault?_rat.1 hfault).1
  refine le_antisymm ?_ (hleads.le_total hrouter.costsAtLeast hpos.le hc)
  have hhop := add_mem_totals ((tightRouter weights).zero_mem_totals source) hlink
    (linkCost_tightRouter weights source d c)
  simpa using hle hhop

/-- Two chips with the same cost below the tolerance explain each other. The error is the cost of
the hop, which is below the tolerance. -/
theorem explained_tightRouter (hpos : 0 < weights.k) (hsmall : weights.k < Quantity.tolerance)
    (hlink : tightMesh.follow? a d = some c) (ha : costs[a]? = some weights.k) :
    (tightRouter weights).explains costs c weights.k d = some (d, a) := by
  refine explains_eq_some.2 ⟨rfl, explained_iff.2 ⟨hlink, weights.k, weights.k, ha,
    linkCost_tightRouter weights a d c, ?_⟩⟩
  rwa [sub_self, zero_sub, abs_neg, abs_of_pos hpos]

/-- Beyond the rim is no neighbour that could explain a cost. -/
theorem explains_of_rim (hrim : r.machine.step c d.opposite = none) :
    r.explains costs c q d = none := by
  unfold explains
  rw [hrim]

/-- The two lower chips lead back to each other, not to the chip above. The neighbours are asked in
the order of the links. Those that would be asked before lie beyond the rim. -/
theorem backStep_tightRouter (source : Chip) (hpos : 0 < weights.k)
    (hsmall : weights.k < Quantity.tolerance) (hleft : costs[(⟨0, 0⟩ : Chip)]? = some weights.k)
    (hright : costs[(⟨1, 0⟩ : Chip)]? = some weights.k) :
    (tightRouter weights).backStep costs source ⟨0, 0⟩ = .ok (.west, ⟨1, 0⟩) ∧
      (tightRouter weights).backStep costs source ⟨1, 0⟩ = .ok (.east, ⟨0, 0⟩) := by
  have hne : Quantity.eq weights.k Quantity.zero = false := by simpa using hpos.ne'
  constructor
  · refine backStep_eq_ok.2 ⟨weights.k, hleft, hne, ?_⟩
    -- East, north-east and north come before west, but lead here from beyond the rim.
    have heast : tightMesh.step ⟨0, 0⟩ Direction.east.opposite = none := by decide
    have hnortheast : tightMesh.step ⟨0, 0⟩ Direction.northEast.opposite = none := by decide
    have hnorth : tightMesh.step ⟨0, 0⟩ Direction.north.opposite = none := by decide
    have hwest := explained_tightRouter hpos hsmall
      (show tightMesh.follow? ⟨1, 0⟩ .west = some ⟨0, 0⟩ by decide) hright
    simp only [predecessor?, Direction.all, List.findSome?_cons]
    rw [explains_of_rim heast, explains_of_rim hnortheast, explains_of_rim hnorth, hwest]
  · refine backStep_eq_ok.2 ⟨weights.k, hright, hne, ?_⟩
    have heast := explained_tightRouter hpos hsmall
      (show tightMesh.follow? ⟨0, 0⟩ .east = some ⟨1, 0⟩ by decide) hleft
    simp only [predecessor?, Direction.all, List.findSome?_cons]
    rw [heast]

/-- From the lower chips the source is never reached. By induction on the steps left, at either of
the two chips; each step goes over to the other. -/
theorem retraceFrom_tightRouter (hpos : 0 < weights.k) (hsmall : weights.k < Quantity.tolerance)
    (hleft : costs[(⟨0, 0⟩ : Chip)]? = some weights.k)
    (hright : costs[(⟨1, 0⟩ : Chip)]? = some weights.k) (hc : c = ⟨0, 0⟩ ∨ c = ⟨1, 0⟩)
    (bound : Nat) (hops : List Hop) :
    (tightRouter weights).retraceFrom costs ⟨1, 1⟩ bound c found ≠ .ok hops := by
  have hne : c ≠ ⟨1, 1⟩ := by
    rcases hc with rfl | rfl <;> decide
  induction bound generalizing c found with
  | zero =>
      rw [retraceFrom, if_neg hne]
      intro h
      contradiction
  | succ bound ih =>
      obtain ⟨hwest, heast⟩ := backStep_tightRouter ⟨1, 1⟩ hpos hsmall hleft hright
      rw [retraceFrom, if_neg hne]
      rcases hc with rfl | rfl
      · simp only [hwest]
        exact ih (.inr rfl) (by decide)
      · simp only [heast]
        exact ih (.inl rfl) (by decide)

/-- If hops cost less than the tolerance, the paths to the two lower chips are not found, though
their costs are. Both destinations are beside the source, so their costs are those of one hop.
Tracing back from either goes to and fro between the two. -/
theorem tightRouter_fails (hfault : weights.fault? = none)
    (hsmall : weights.k < Quantity.tolerance) :
    (∃ costs, (tightRouter weights).relax ⟨1, 1⟩ [⟨0, 0⟩, ⟨1, 0⟩] = .ok costs) ∧
      ∀ p, (tightRouter weights).paths ⟨1, 1⟩ [⟨0, 0⟩, ⟨1, 0⟩] ≠ .ok p := by
  have hpos : 0 < weights.k := (Weights.fault?_rat.1 hfault).1
  have hleft : tightMesh.follow? ⟨1, 1⟩ .southWest = some ⟨0, 0⟩ := by decide
  have hright : tightMesh.follow? ⟨1, 1⟩ .south = some ⟨1, 0⟩ := by decide
  have hreached : ∀ c ∈ [(⟨0, 0⟩ : Chip), ⟨1, 0⟩], (tightRouter weights).totals ⟨1, 1⟩ c ≠ ∅ := by
    intro c hc
    have hstart := (tightRouter weights).zero_mem_totals ⟨1, 1⟩
    refine Set.Nonempty.ne_empty ⟨0 + weights.k, ?_⟩
    rcases List.mem_pair.1 hc with rfl | rfl
    · exact add_mem_totals hstart hleft (linkCost_tightRouter ..)
    · exact add_mem_totals hstart hright (linkCost_tightRouter ..)
  have hrouter := committed_tightRouter hfault
  have hsource : tightMesh.isChip ⟨1, 1⟩ = true := by decide
  have hsettles := settles_relax hrouter.costs_nonneg hsource [⟨0, 0⟩, ⟨1, 0⟩]
  cases hrelax : (tightRouter weights).relax ⟨1, 1⟩ [⟨0, 0⟩, ⟨1, 0⟩] with
  | error e =>
      obtain ⟨c, hc, -⟩ := hrelax ▸ hsettles
      exact absurd hc.cutOff (hreached c hc.destination)
  | ok costs =>
      obtain ⟨hcheapest, hall⟩ := hrelax ▸ hsettles
      refine ⟨⟨costs, rfl⟩, fun p hp => ?_⟩
      obtain ⟨-, costs', paths, hcosts', hpaths, rfl⟩ := paths_eq_ok.1 hp
      obtain rfl := Except.ok.inj (hrelax.symm.trans hcosts')
      have hcost {c : Chip} {d : Direction} (hc : c ∈ costs)
          (hlink : tightMesh.follow? ⟨1, 1⟩ d = some c) (hne : c ≠ ⟨1, 1⟩) :
          costs[c]? = some weights.k := by
        obtain ⟨q, hq⟩ := mem_iff_exists_cost.1 hc
        rw [hq, cost_beside hcheapest hfault hlink hne hq]
      obtain ⟨hops, hhops, -⟩ := bind_eq_ok.1 hpaths
      exact retraceFrom_tightRouter hpos hsmall (hcost (hall _ (by simp)) hleft (by decide))
        (hcost (hall _ (by simp)) hright (by decide)) (.inl rfl) _ hops hhops

/-- What tracing back does, with exact costs and coefficients that pass their check. The paths found
have totals that are off the costs of their destinations by no more than the tolerance for each hop.
They are found whenever the costs are, on every machine, whatever was committed and for all
destinations, if and only if the cost of a hop is no smaller than the tolerance. The tolerance is
absolute, and nothing but the positive cost of a hop keeps costs apart; where that is smaller, the
mesh of four chips is a machine on which paths are not found. -/
theorem paths_complete_iff (hfault : weights.fault? = none) :
    (∀ m r, Committed m weights r → ∀ source destinations p,
      r.paths source destinations = .ok p →
      ∃ costs, r.relax source destinations = .ok costs ∧ p.paths.map (·.1) = destinations ∧
        ∀ path ∈ p.paths, ∃ q total, costs[path.1]? = some q ∧
          r.Leads source path.2 path.1 total ∧
          |total - q| ≤ path.2.length * Quantity.tolerance) ∧
    ((∀ m r, Committed m weights r → ∀ source destinations costs, m.isChip source = true →
      r.relax source destinations = .ok costs → ∃ p, r.paths source destinations = .ok p) ↔
        Quantity.tolerance ≤ weights.k) := by
  constructor
  · intro m r hr source destinations p hp
    obtain ⟨hsource, costs, paths, hcosts, hpaths, rfl⟩ := paths_eq_ok.1 hp
    obtain ⟨hcheapest, hall⟩ := hcosts ▸ settles_relax hr.costs_nonneg hsource destinations
    obtain ⟨hmap, hfollows⟩ := retraceAll_spec hpaths
    refine ⟨costs, hcosts, hmap, fun path hpath => ?_⟩
    have hdestination : path.1 ∈ destinations := hmap ▸ List.mem_map_of_mem hpath
    obtain ⟨q, hq⟩ := mem_iff_exists_cost.1 (hall _ hdestination)
    obtain ⟨total, hleads, herror⟩ :=
      exists_leads_of_follows hcheapest hr.costs_nonneg (hfollows path hpath) hq
    exact ⟨q, total, hq, hleads, herror⟩
  · constructor
    · intro hfound
      by_contra hsmall
      obtain ⟨⟨costs, hcosts⟩, hfails⟩ := tightRouter_fails hfault (not_le.1 hsmall)
      obtain ⟨p, hp⟩ := hfound _ _ (committed_tightRouter hfault) _ _ costs (by decide) hcosts
      exact hfails p hp
    · intro htolerance m r hr source destinations costs hsource hcosts
      rw [← hr.terms.2.1] at hsource
      obtain ⟨hcheapest, hall⟩ := hcosts ▸ settles_relax hr.costs_nonneg hsource destinations
      obtain ⟨paths, hpaths⟩ := exists_retraceAll hcheapest hr.costsAtLeast htolerance hall
      exact ⟨_, paths_eq_ok.2 ⟨hsource, costs, paths, hcosts, hpaths, rfl⟩⟩

/-- Over the pass whose middle chip is full a path is traced back all the same, round that chip, and
its total is as close to the cost as is claimed. -/
theorem blockedPass_retraced : ∃ costs p, blockedPass.relax ⟨0, 0⟩ [⟨2, 0⟩] = .ok costs ∧
    blockedPass.paths ⟨0, 0⟩ [⟨2, 0⟩] = .ok p ∧ p.paths.map (·.1) = [⟨2, 0⟩] ∧
      ∀ path ∈ p.paths, ∃ q total, costs[path.1]? = some q ∧
        blockedPass.Leads ⟨0, 0⟩ path.2 path.1 total ∧
        |total - q| ≤ path.2.length * Quantity.tolerance := by
  have hfault : Weights.fault? (⟨1, 1, 1, 1⟩ : Weights Rat) = none := by decide +kernel
  obtain ⟨haccurate, hcomplete⟩ := paths_complete_iff hfault
  have htolerance : Quantity.tolerance ≤ (1 : Rat) := by decide +kernel
  obtain ⟨costs, hcosts⟩ := exists_of_isOk
    (show (blockedPass.relax ⟨0, 0⟩ [⟨2, 0⟩]).isOk = true by decide +kernel)
  obtain ⟨p, hp⟩ := hcomplete.2 htolerance _ _ committed_blockedPass _ _ costs (by decide) hcosts
  obtain ⟨costs', hcosts', hmap, hpaths⟩ := haccurate _ _ committed_blockedPass _ _ p hp
  obtain rfl := Except.ok.inj (hcosts.symm.trans hcosts')
  exact ⟨costs, p, hcosts, hp, hmap, hpaths⟩

/-- Coefficients that pass their check, with hops that cost a tenth of the tolerance. -/
def fineWeights : Weights Rat :=
  ⟨1 / 10000000000, 0, 0, 1⟩

/-- The coefficients pass their check and all costs are found, and still no path is traced back to
one of the destinations, since its cost is explained by that of its neighbour and the neighbour's by
its own. -/
theorem fineWeights_unexplained :
    fineWeights.fault? = none ∧ Committed tightMesh fineWeights (tightRouter fineWeights) ∧
      tightMesh.isChip ⟨1, 1⟩ = true ∧
      (∃ costs, (tightRouter fineWeights).relax ⟨1, 1⟩ [⟨0, 0⟩, ⟨1, 0⟩] = .ok costs) ∧
      (tightRouter fineWeights).paths ⟨1, 1⟩ [⟨0, 0⟩, ⟨1, 0⟩] =
        .error (.unexplainedCost ⟨1, 0⟩ ⟨1, 1⟩) := by
  have hfault : fineWeights.fault? = none := by decide +kernel
  refine ⟨hfault, committed_tightRouter hfault, by decide, ?_, by decide +kernel⟩
  exact exists_of_isOk (by decide +kernel)

end CostRouter

end Multicast
