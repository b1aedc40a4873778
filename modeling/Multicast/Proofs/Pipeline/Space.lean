import Multicast.Proofs.Cost.Commit
import Multicast.Proofs.Pipeline.Cheapest
import Multicast.Proofs.Pipeline.Compose

/-!
# `Multicast.Proofs.Pipeline.Space`: table space is kept account of

Table space is looked at in three places. A link has no cost if the chip behind it is full, which is
tested link by link while costs are found and traced back. A commit counts one entry on each chip of
a tree. And the tables hold one entry for each partition that has one on a chip, after merging.

A tree of a cost router enters each chip but its source over a link with a cost, so where it counts
an entry there was room for one (`CostRouter.lt_entries_of_netTree`). Along a run no chip therefore
gets more trees than it can hold, unless a net starts there (`RoutesInTurn.add_countP_le`). A chip
has no more entries in the tables than trees, since all its entries are for different partitions and
each of these has a tree on the chip (`Tables.length_le_countP`). So the tables are too long on
source chips only.

`CostRouter.call` is one call on a router that is kept between nets, also after a call that failed.
-/

set_option autoImplicit false

namespace Multicast

namespace CostRouter

variable {ν : Type} [Quantity ν] {m : Machine ν} {w : Weights ν} {r r' : CostRouter ν} {net : Net}
  {t : RouteTree} {a c : Chip} {d : Direction} {cost total : ν}

/-! ### Room for an entry -/

/-- Where tables count for costs, a link has one only if the chip behind it has room. -/
theorem lt_entries_of_addTablePressure (hl : Quantity.eq r.weights.l Quantity.zero = false)
    (h : r.addTablePressure c cost = some total) :
    r.usedEntries.getD c 0 < r.machine.entries c := by
  unfold addTablePressure at h
  rw [if_neg (by simp [hl])] at h
  exact (Option.ite_none_right_eq_some.1 h).1

/-- A tree of a net has room on every chip but the one it starts on. -/
theorem lt_entries_of_netTree (hl : Quantity.eq r.weights.l Quantity.zero = false)
    (h : r.netTree net = .ok t) (hc : c ∈ t.reachedChips) (hne : c ≠ net.source.chip) :
    r.usedEntries.getD c 0 < r.machine.entries c := by
  obtain ⟨g, rfl, hgrown, costs, hedges⟩ := netTree_follows h
  obtain ⟨n, hn, hnc⟩ := hgrown.sound.isProper.mem_reachedChips.1 hc
  -- The chip is not the source, so an edge enters it, over a link that has a cost.
  obtain heq | ⟨p, -, hp⟩ := hn.cases_tail
  · rw [← heq, hgrown.root_chip] at hnc
    exact absurd (Option.some.inj hnc).symm hne
  · obtain ⟨route, hroute⟩ := RouteTree.mem_kids.1 hp
    obtain ⟨a, d, b, -, -, hb, hbefore⟩ := hedges hroute
    obtain rfl := Option.some.inj (hnc.symm.trans hb)
    obtain ⟨_, -, hexplained⟩ := explained_of_before? hbefore
    obtain ⟨_, _, -, hcost, -⟩ := hexplained.agrees
    obtain ⟨between, hbetween, -⟩ := Option.bind_eq_some_iff.1 hcost
    exact lt_entries_of_addTablePressure hl hbetween

/-- The tree of a net counts one entry on each of its chips. -/
theorem usedEntries_of_netTree (h : r.netTree net = .ok t) (c : Chip) :
    (r.commit t).usedEntries.getD c 0 =
      r.usedEntries.getD c 0 + if c ∈ t.reachedChips then 1 else 0 := by
  obtain ⟨g, rfl, hgrown, -⟩ := netTree_spec h
  rw [usedEntries_commit, hgrown.sound.isProper.nodup_reachedChips.count]

/-! ### Calls on one router -/

/-- One call on a router that is kept: the tree of a net, counted once it is there. -/
def call (net : Net) : ExceptT RouteError (StateM (CostRouter ν)) RouteTree := do
  let r ← get
  let tree ← r.netTree net
  set (r.commit tree)
  return tree

/-- Calls one after another, whether they fail or not. -/
def calls : List Net → StateM (CostRouter ν) (List (Except RouteError RouteTree))
  | [] => return []
  | net :: rest => do
    let answer ← (call net).run
    let answers ← calls rest
    return answer :: answers

/-- Whether the answer of a call is a tree with a node on a chip. -/
def reaches (c : Chip) : Except RouteError RouteTree → Bool
  | .ok t => t.reachedChips.contains c
  | .error _ => false

/-- A call answers what routing the net does; only success changes the router. -/
theorem run_call (r : CostRouter ν) (net : Net) : (call net).run.run r =
    match r.routeNet net with
    | .ok (t, used) => (.ok t, used)
    | .error e => (.error e, r) := by
  rw [routeNet]
  show (ExceptT.run do
    let tree ← (liftM (r.netTree net) : ExceptT RouteError (StateM (CostRouter ν)) RouteTree)
    set (r.commit tree)
    return tree).run r = _
  cases r.netTree net <;> rfl

/-- A call counts an entry on each chip of its tree, if it answers one. -/
theorem usedEntries_call (r : CostRouter ν) (net : Net) (c : Chip) :
    ((call net).run.run r).2.usedEntries.getD c 0 =
      r.usedEntries.getD c 0 + if reaches c ((call net).run.run r).1 then 1 else 0 := by
  rw [run_call]
  cases h : r.routeNet net with
  | error e => rfl
  | ok result =>
      obtain ⟨t, used⟩ := result
      obtain ⟨htree, rfl⟩ := routeNet_eq_ok.1 h
      simp only [usedEntries_of_netTree htree, reaches, List.contains_iff_mem]

/-- A chip is counted once for each tree that has it. -/
theorem usedEntries_calls (r : CostRouter ν) (nets : List Net) (c : Chip) :
    ((calls nets).run r).2.usedEntries.getD c 0 =
      r.usedEntries.getD c 0 + ((calls nets).run r).1.countP (reaches c) := by
  induction nets generalizing r with
  | nil => rfl
  | cons net rest ih =>
      have hrest := ih ((call net).run.run r).2
      rw [usedEntries_call, Nat.add_assoc, Nat.add_comm (ite _ _ _), ← List.countP_cons] at hrest
      exact hrest

/-! ### Room along a run -/

/-- Trees given in turn are never more on a chip than it can hold, unless a net starts there. -/
theorem RoutesInTurn.add_countP_le {routed : List RoutedNet} (h : r.RoutesInTurn routed)
    (hl : Quantity.eq r.weights.l Quantity.zero = false)
    (hsource : ∀ n ∈ routed, n.net.source.chip ≠ c)
    (hroom : r.usedEntries.getD c 0 ≤ r.machine.entries c) :
    r.usedEntries.getD c 0 + routed.countP (fun n => n.tree.reachedChips.contains c) ≤
      r.machine.entries c := by
  induction routed generalizing r with
  | nil => exact hroom
  | cons n rest ih =>
      obtain ⟨htree, hturns⟩ := h
      obtain ⟨hn, hrest⟩ := List.forall_mem_cons.1 hsource
      have hsame := r.sameTerms_commit n.tree
      have hused := usedEntries_of_netTree htree c
      have hle : (r.commit n.tree).usedEntries.getD c 0 ≤ r.machine.entries c := by
        rw [hused]
        split
        · next hc => exact lt_entries_of_netTree hl htree hc (Ne.symm hn)
        · exact hroom
      have hcount := ih hturns (by rwa [hsame.weights]) hrest (by rwa [hsame.machine])
      rw [hsame.machine, hused] at hcount
      simp only [List.countP_cons, List.contains_iff_mem]
      omega

end CostRouter

/-! ### Entries in the tables -/

namespace Tables

variable {t : Tables} {capacity : Chip → Nat} {c : Chip} {n : Nat} {group : List Row}

/-- A chip reported to be too full has that many entries, for different partitions. -/
theorem partitions_of_overfull (h : (c, n) ∈ t.overfull capacity) : capacity c < n ∧
    ∃ partitions : List Partition, partitions.Nodup ∧ partitions.length = n ∧
      ∀ p ∈ partitions, ∃ e, t.get? ⟨c, p⟩ = some e := by
  obtain ⟨group, hgroup, h⟩ := List.mem_filterMap.1 h
  obtain ⟨hsub, hsame⟩ := mem_groups hgroup
  cases group with
  | nil => contradiction
  | cons row others =>
      obtain ⟨hfull, heq⟩ := Option.ite_none_right_eq_some.1 h
      obtain ⟨rfl, rfl⟩ := Prod.mk.inj (Option.some.inj heq)
      have hchip : ∀ x ∈ row :: others, x.slot = ⟨row.slot.chip, x.slot.partition⟩ := by
        intro x hx
        rcases List.mem_cons.1 hx with rfl | hx
        · rfl
        · rw [List.rel_of_pairwise_cons hsame hx]
      refine ⟨hfull, (row :: others).map (·.slot.partition), ?_, List.length_map _, ?_⟩
      · have hslots := (hsub.map (·.slot)).nodup t.nodup_rows
        refine List.pairwise_map.2 ((List.pairwise_map.1 hslots).imp_of_mem ?_)
        intro x y hx hy hne heq
        exact hne (by rw [hchip x hx, hchip y hy, heq])
      · rintro p hp
        obtain ⟨x, hx, rfl⟩ := List.mem_map.1 hp
        rw [← hchip x hx]
        exact ⟨x.entry, mem_rows.1 (hsub.subset hx)⟩

/-- What tables hold was put there. -/
theorem mem_of_addRows {rows : List Row} {slot : Slot} {e : Entry}
    (h : empty.addRows rows = .ok t) (he : t.get? slot = some e) : ∃ e', ⟨slot, e'⟩ ∈ rows := by
  have hgather := (addRows_eq_ok.1 h slot).2
  rw [he, meant_empty] at hgather
  have hne : entriesAt slot rows ≠ [] := fun hnil => by simp [hnil] at hgather
  obtain ⟨e', he'⟩ := List.exists_mem_of_ne_nil _ hne
  exact ⟨e', mem_entriesAt.1 he'⟩

end Tables

/-- The rows of a routed net are for chips of its tree and for its partition. -/
theorem RoutedNet.mem_rows {n : RoutedNet} {slot : Slot} {e : Entry} (h : ⟨slot, e⟩ ∈ n.rows) :
    slot.chip ∈ n.tree.reachedChips ∧ n.net.partition = slot.partition := by
  obtain ⟨x, hx, heq⟩ := List.mem_map.1 h
  obtain ⟨rfl, -⟩ := Row.mk.inj heq
  obtain ⟨k, hk, hc, -⟩ := RouteTree.mem_entries hx
  exact ⟨List.mem_filterMap.2 ⟨k, hk, hc⟩, rfl⟩

/-- A chip has no more entries for different partitions than trees. -/
theorem Tables.length_le_countP {routed : List RoutedNet} {t : Tables} {c : Chip}
    {partitions : List Partition} (h : Tables.empty.addRows (routed.flatMap RoutedNet.rows) = .ok t)
    (hnodup : partitions.Nodup) (hentries : ∀ p ∈ partitions, ∃ e, t.get? ⟨c, p⟩ = some e) :
    partitions.length ≤ routed.countP fun n => n.tree.reachedChips.contains c := by
  have hsub : partitions ⊆ (routed.filter fun n => n.tree.reachedChips.contains c).map
      (·.net.partition) := by
    intro p hp
    obtain ⟨e, he⟩ := hentries p hp
    obtain ⟨e', he'⟩ := mem_of_addRows h he
    obtain ⟨n, hn, hrow⟩ := List.mem_flatMap.1 he'
    obtain ⟨hc, rfl⟩ := RoutedNet.mem_rows hrow
    exact List.mem_map_of_mem (List.mem_filter.2 ⟨hn, List.contains_iff_mem.2 hc⟩)
  have hlength := (hnodup.subperm hsub).length_le
  rwa [List.length_map, ← List.countP_eq_length_filter] at hlength

namespace Machine

variable {ν : Type} [Quantity ν]

/-- Tables of a run that are too long for a chip have a net that starts there, as long as table
space is looked at. -/
theorem source_of_overfull {m : Machine ν} {o : Options ν} {nets : List Net} {tables : Tables}
    {c : Chip} {n : Nat} (hl : Quantity.eq o.weights.l Quantity.zero = false)
    (halgorithm : o.algorithm = .cheapest) (h : (m.routeNets nets o).result = .ok tables)
    (hfull : (c, n) ∈ tables.overfull m.entries) : ∃ net ∈ nets, net.source.chip = c := by
  rw [routeNets, halgorithm] at h
  obtain ⟨run, hrun, rfl⟩ := Run.finish_eq_ok.1 h
  obtain ⟨router, hrouter, hrun⟩ := bind_eq_ok.1 hrun
  obtain ⟨-, rfl⟩ := CostRouter.create_eq_ok.1 (Run.attempt_eq_ok.1 hrouter)
  obtain ⟨routed, rfl, hrecord, hturns⟩ := Run.recorded_of_cheapest hrun
  have hrows := Run.result_recordAll m.entries .start routed
  rw [hrecord] at hrows
  obtain ⟨hcapacity, partitions, hnodup, rfl, hentries⟩ := Tables.partitions_of_overfull hfull
  have hlength := Tables.length_le_countP hrows.symm hnodup hentries
  by_contra hsource
  have hcount := hturns.add_countP_le (c := c) hl
    (fun n hn heq => hsource ⟨n.net, List.mem_map_of_mem hn, heq⟩) (by simp)
  simp only [Std.ExtTreeMap.getD_empty, Nat.zero_add] at hcount
  omega

open CostRouter in
/-- Table space is kept account of, however costs compare. A call that fails leaves the router as it
was; after any calls each chip is counted as often as it has a node in the tree of an answer; and if
tables count for costs, the tables of a run are too long only for chips on which a net starts. -/
theorem space_accounted (m : Machine ν) :
    (∀ (r r' : CostRouter ν) net e, (call net).run.run r = (.error e, r') → r' = r) ∧
    (∀ w r, create m w = .ok r → ∀ nets answers r', (calls nets).run r = (answers, r') →
      ∀ c, r'.usedEntries.getD c 0 = answers.countP (reaches c)) ∧
    ∀ (o : Options ν) nets tables, Quantity.eq o.weights.l Quantity.zero = false →
      o.algorithm = .cheapest → (m.routeNets nets o).result = .ok tables →
      ∀ c n, (c, n) ∈ tables.overfull m.entries → ∃ net ∈ nets, net.source.chip = c := by
  refine ⟨?_, ?_, fun o nets tables hl halgorithm h c n hfull =>
    source_of_overfull hl halgorithm h hfull⟩
  · intro r r' net e hcall
    rw [run_call] at hcall
    cases hnet : r.routeNet net with
    | error e' =>
        rw [hnet] at hcall
        exact (Prod.mk.inj hcall).2.symm
    | ok result =>
        rw [hnet] at hcall
        exact absurd (Prod.mk.inj hcall).1 (by simp)
  · intro w r hcreate nets answers r' hcalls c
    have hused := usedEntries_calls r nets c
    rw [hcalls, (create_eq_ok.1 hcreate).2] at hused
    simpa using hused

/-- Chips in a row that can hold one entry each. -/
def crammedRow : Machine Rat :=
  .uniform (.intact { width := 3, height := 1, wraps := false }) 1 10

/-- Cheapest paths that keep clear of full tables. -/
def spacious : Options Rat :=
  { (Options.standard : Options Rat) with
    algorithm := .cheapest
    weights := { k := 1, l := 1, m := 0, perRoute := 1 } }

/-- The router of the row with nothing committed. -/
def freshRow : CostRouter Rat :=
  ⟨crammedRow, spacious.weights, ∅, ∅, 1, 10⟩

/-- The router of the row has the largest capacities of its chips as its scale. -/
theorem create_freshRow : CostRouter.create crammedRow spacious.weights = .ok freshRow :=
  CostRouter.create_of_most (n := 1) (by decide +kernel) (by decide +kernel) (by decide +kernel)

/-- A net of a partition from the first chip of the row to one of its chips. -/
def rowNet (partition : UInt32) (column : Nat) : Net :=
  { partition := ⟨partition⟩, source := .core ⟨0, 0⟩ 1, sinks := [.core ⟨column, 0⟩ 2] }

open CostRouter in
/-- The second call fails, since the chip of its sink has no entry left, and it is not counted; the
third has its sink on the source itself. The same two nets as a run overfill the chip that is the
source of both. -/
theorem crammedRow_accounted :
    (∃ answers r, (calls [rowNet 0 1, rowNet 1 1, rowNet 2 0]).run freshRow = (answers, r) ∧
      answers.map (·.isOk) = [true, false, true] ∧
      (∀ c, r.usedEntries.getD c 0 = answers.countP (reaches c)) ∧
      ∃ e, (call (rowNet 3 1)).run.run r = (.error e, r)) ∧
    ∃ tables, (crammedRow.routeNets [rowNet 0 1, rowNet 2 0] spacious).result = .ok tables ∧
      (⟨0, 0⟩, 2) ∈ tables.overfull crammedRow.entries ∧
      ∃ net ∈ [rowNet 0 1, rowNet 2 0], net.source.chip = ⟨0, 0⟩ := by
  obtain ⟨hkept, hcounts, hfull⟩ := space_accounted crammedRow
  constructor
  · have hanswers : ((calls [rowNet 0 1, rowNet 1 1, rowNet 2 0]).run freshRow).1.map (·.isOk) =
        [true, false, true] := by decide +kernel
    have hrefused : ((call (rowNet 3 1)).run.run
        ((calls [rowNet 0 1, rowNet 1 1, rowNet 2 0]).run freshRow).2).1.isOk = false := by
      decide +kernel
    generalize hcalls : (calls [rowNet 0 1, rowNet 1 1, rowNet 2 0]).run freshRow = done at *
    obtain ⟨answers, r⟩ := done
    refine ⟨answers, r, rfl, hanswers, hcounts _ _ create_freshRow _ _ _ hcalls, ?_⟩
    dsimp only at hrefused
    generalize hcall : (call (rowNet 3 1)).run.run r = left at hrefused ⊢
    obtain ⟨answer, r'⟩ := left
    cases answer with
    | ok t => cases hrefused
    | error e => exact ⟨e, by rw [hkept _ _ _ e hcall]⟩
  · obtain ⟨tables, htables⟩ := exists_of_isOk
      (show (crammedRow.routeNets [rowNet 0 1, rowNet 2 0] spacious).result.isOk = true by
        decide +kernel)
    have hlisted : (crammedRow.routeNets [rowNet 0 1, rowNet 2 0] spacious).result.map
        (·.overfull crammedRow.entries) = .ok [(⟨0, 0⟩, 2)] := by decide +kernel
    rw [htables] at hlisted
    have hrows : tables.overfull crammedRow.entries = [(⟨0, 0⟩, 2)] := Except.ok.inj hlisted
    have hmem : (⟨0, 0⟩, 2) ∈ tables.overfull crammedRow.entries := by
      rw [hrows]
      exact List.mem_singleton_self _
    exact ⟨tables, htables, hmem, hfull _ _ tables (by decide +kernel) rfl htables _ _ hmem⟩

end Machine

end Multicast
