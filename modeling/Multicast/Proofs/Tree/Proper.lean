import Mathlib.Data.List.Count
import Mathlib.Data.List.Induction
import Mathlib.Data.List.Nodup
import Multicast.Proofs.Tree.Forest

/-!
# `Multicast.Proofs.Tree.Proper`: what a routing tree has to be

A row of nodes may hold any edges. `IsProper` says when the part reached from the
root is a tree over chips: every node reached is in the row, is reached over one
chain of edges only, and is the only one on its chip. A chain is written as the
places of the edges it takes (`follow`), so two edges between the same nodes make
two chains. Nodes that are not reached are left out of account.

`isProper_iff` gives the same by what is seen at single nodes: no two edges from
nodes reached lead to one node, and none leads to the root. `IsForest.isProper`
is the way the library gets there. `mem_reached` and `mem_subtree` say what the
walks of a tree find.
-/

set_option autoImplicit false

namespace Multicast.RouteTree

/-- Where a chain of edges leads; each edge is given by its place among those that lead to
nodes. -/
def follow (t : RouteTree) : NodeId → List Nat → Option NodeId
  | n, [] => some n
  | n, place :: rest =>
    match (t.kids n)[place]? with
    | some next => t.follow next rest
    | none => none

/-- The part of the row reached from the root is a tree with one node on a chip. -/
structure IsProper (t : RouteTree) : Prop where
  inRow : ∀ {chain n}, t.follow t.root chain = some n → n < t.size
  oneChain : ∀ {chain chain' n}, t.follow t.root chain = some n →
    t.follow t.root chain' = some n → chain = chain'
  onePerChip : ∀ {chain chain' m n}, t.follow t.root chain = some m →
    t.follow t.root chain' = some n → t.chip? m = t.chip? n → m = n

/-- Every node reached but the root forwards somewhere. -/
def NoDeadEnd (t : RouteTree) : Prop :=
  ∀ n, t.Below t.root n → n ≠ t.root → t.isLeaf n = false

variable {t : RouteTree} {m n p q : NodeId}

/-- A chain with one more edge. -/
theorem follow_snoc {chain : List Nat} {place : Nat} :
    t.follow m (chain ++ [place]) = some n ↔
      ∃ p, t.follow m chain = some p ∧ (t.kids p)[place]? = some n := by
  induction chain generalizing m with
  | nil =>
      cases h : (t.kids m)[place]? <;> simp [follow, h]
  | cons first rest ih =>
      rw [List.cons_append, follow]
      cases h : (t.kids m)[first]? with
      | none => simp [follow, h]
      | some next => simpa [follow, h] using ih

/-- A node is below another when a chain of places leads there. -/
theorem below_iff_follow : t.Below m n ↔ ∃ chain, t.follow m chain = some n := by
  constructor
  · intro h
    refine h.induct (motive := fun n => ∃ chain, t.follow m chain = some n) ⟨[], rfl⟩ ?_
    rintro p k - hk ⟨chain, hc⟩
    obtain ⟨place, hplace⟩ := List.mem_iff_getElem?.1 hk
    exact ⟨chain ++ [place], follow_snoc.2 ⟨p, hc, hplace⟩⟩
  · rintro ⟨chain, hc⟩
    -- On the chain from its end, since the relation grows at its end.
    induction chain using List.reverseRecOn generalizing n with
    | nil =>
        obtain rfl : m = n := Option.some.inj hc
        exact .refl
    | append_singleton chain place ih =>
        obtain ⟨p, hp, hplace⟩ := follow_snoc.1 hc
        exact (ih hp).step (List.mem_iff_getElem?.2 ⟨place, hplace⟩)

/-! ### Proper trees node by node -/

namespace IsProper

variable (h : t.IsProper)
include h

/-- What is below the root is in the row. -/
theorem lt_size (hn : t.Below t.root n) : n < t.size :=
  (below_iff_follow.1 hn).elim fun _ hc => h.inRow hc

/-- Nodes below the root on one chip are one node. -/
theorem eq_of_chip? (hm : t.Below t.root m) (hn : t.Below t.root n) (hc : t.chip? m = t.chip? n) :
    m = n := by
  obtain ⟨_, hm⟩ := below_iff_follow.1 hm
  obtain ⟨_, hn⟩ := below_iff_follow.1 hn
  exact h.onePerChip hm hn hc

/-- No edge leads back to the root. -/
theorem root_not_kid (hp : t.Below t.root p) : t.root ∉ t.kids p := by
  intro hk
  obtain ⟨chain, hc⟩ := below_iff_follow.1 hp
  obtain ⟨place, hplace⟩ := List.mem_iff_getElem?.1 hk
  -- The root would be reached over no edge and over this one.
  have hnone : t.follow t.root [] = some t.root := rfl
  have := h.oneChain (follow_snoc.2 ⟨p, hc, hplace⟩) hnone
  simp at this

/-- A node has one parent below the root. -/
theorem parent_unique (hp : t.Below t.root p) (hq : t.Below t.root q) (hnp : n ∈ t.kids p)
    (hnq : n ∈ t.kids q) : p = q := by
  obtain ⟨chain, hc⟩ := below_iff_follow.1 hp
  obtain ⟨chain', hc'⟩ := below_iff_follow.1 hq
  obtain ⟨i, hi⟩ := List.mem_iff_getElem?.1 hnp
  obtain ⟨j, hj⟩ := List.mem_iff_getElem?.1 hnq
  -- Two chains to the same node are one chain, with one last edge.
  have := h.oneChain (follow_snoc.2 ⟨p, hc, hi⟩) (follow_snoc.2 ⟨q, hc', hj⟩)
  obtain ⟨rfl, -⟩ := List.append_inj' this rfl
  exact Option.some.inj (hc.symm.trans hc')

/-- No two edges of a node lead to one child. -/
theorem nodup_kids (hp : t.Below t.root p) : (t.kids p).Nodup := by
  obtain ⟨chain, hc⟩ := below_iff_follow.1 hp
  refine List.nodup_iff_getElem?_ne_getElem?.2 fun i j hij hj heq => ?_
  obtain ⟨n, hn⟩ : ∃ n, (t.kids p)[j]? = some n := ⟨_, List.getElem?_eq_getElem hj⟩
  have := h.oneChain (follow_snoc.2 ⟨p, hc, heq.trans hn⟩) (follow_snoc.2 ⟨p, hc, hn⟩)
  have := List.append_inj' this rfl
  simp only [List.cons.injEq, and_true, true_and] at this
  omega

end IsProper

/-- A tree is proper when every node reached is in the row and alone on its chip, no two edges from
nodes reached lead to the same node, and none leads back to the root. -/
theorem isProper_iff : t.IsProper ↔
    (∀ n, t.Below t.root n → n < t.size) ∧
    (∀ p, t.Below t.root p → t.root ∉ t.kids p ∧ (t.kids p).Nodup) ∧
    (∀ p q n, t.Below t.root p → t.Below t.root q → n ∈ t.kids p → n ∈ t.kids q → p = q) ∧
    ∀ m n, t.Below t.root m → t.Below t.root n → t.chip? m = t.chip? n → m = n := by
  constructor
  · exact fun h => ⟨fun _ => h.lt_size, fun _ hp => ⟨h.root_not_kid hp, h.nodup_kids hp⟩,
      fun _ _ _ => h.parent_unique, fun _ _ => h.eq_of_chip?⟩
  · rintro ⟨hlt, hkids, hparent, hchip⟩
    have hbelow : ∀ {chain n}, t.follow t.root chain = some n → t.Below t.root n := fun hc =>
      below_iff_follow.2 ⟨_, hc⟩
    refine ⟨fun hc => hlt _ (hbelow hc), ?_, fun hm hn => hchip _ _ (hbelow hm) (hbelow hn)⟩
    -- Chains are compared from their ends, where the last edge gives the parent.
    intro chain
    induction chain using List.reverseRecOn with
    | nil =>
        intro chain' n hn hn'
        obtain rfl : t.root = n := Option.some.inj hn
        cases chain' using List.reverseRecOn with
        | nil => rfl
        | append_singleton chain' place =>
            obtain ⟨p, hp, hplace⟩ := follow_snoc.1 hn'
            exact absurd (List.mem_iff_getElem?.2 ⟨place, hplace⟩) (hkids p (hbelow hp)).1
    | append_singleton chain place ih =>
        intro chain' n hn hn'
        obtain ⟨p, hp, hplace⟩ := follow_snoc.1 hn
        have hmem : n ∈ t.kids p := List.mem_iff_getElem?.2 ⟨place, hplace⟩
        cases chain' using List.reverseRecOn with
        | nil =>
            obtain rfl : t.root = n := Option.some.inj hn'
            exact absurd hmem (hkids p (hbelow hp)).1
        | append_singleton chain' place' =>
            obtain ⟨q, hq, hplace'⟩ := follow_snoc.1 hn'
            obtain rfl := hparent p q n (hbelow hp) (hbelow hq) hmem
              (List.mem_iff_getElem?.2 ⟨place', hplace'⟩)
            have hlt : place < (t.kids p).length :=
              (List.getElem?_eq_some_iff.1 hplace).1
            rw [ih hp hq, (List.getElem?_inj hlt (hkids p (hbelow hp)).2).1
              (hplace.trans hplace'.symm)]

/-- A forest is a proper tree below its root if the root is a top and no two nodes below it share a
chip. -/
theorem IsForest.isProper (h : t.IsForest) (hroot : t.IsTop t.root)
    (hchip : ∀ m n, t.Below t.root m → t.Below t.root n → t.chip? m = t.chip? n → m = n) :
    t.IsProper :=
  isProper_iff.2 ⟨fun _ hn => h.lt_of_below hroot.1 hn,
    fun p _ => ⟨hroot.2 p, h.nodup_kids p⟩, fun _ _ _ _ _ => h.parent_unique, hchip⟩

/-- A whole row is a proper tree when each edge stays in the row and every node of it passes. -/
theorem isProper_of_row (hroot : t.root < t.size) (hrow : ∀ p < t.size, ∀ k ∈ t.kids p, k < t.size)
    (hkids : ∀ p < t.size, t.root ∉ t.kids p ∧ (t.kids p).Nodup)
    (hparent : ∀ p < t.size, ∀ q < t.size, ∀ n ∈ t.kids p, n ∈ t.kids q → p = q)
    (hchip : ∀ m < t.size, ∀ n < t.size, t.chip? m = t.chip? n → m = n) : t.IsProper := by
  have hlt : ∀ n, t.Below t.root n → n < t.size := fun n hn =>
    hn.induct (motive := (· < t.size)) hroot fun p k _ hk hp => hrow p hp k hk
  exact isProper_iff.2 ⟨hlt, fun p hp => hkids p (hlt p hp),
    fun p q n hp hq => hparent p (hlt p hp) q (hlt q hq) n,
    fun m n hm hn => hchip m (hlt m hm) n (hlt n hn)⟩

/-! ### Walks -/

/-- The walk from the root meets the nodes below it. -/
theorem mem_reached (hlt : ∀ n, t.Below t.root n → n < t.size) :
    n ∈ t.reached ↔ t.Below t.root n :=
  Search.mem_breadthFirst (List.range t.size) (fun n hn => List.mem_range.2 (hlt n hn))
    (by simp) n

/-- No node is met twice. -/
theorem nodup_reached (hlt : ∀ n, t.Below t.root n → n < t.size) : t.reached.Nodup :=
  Search.nodup_breadthFirst (List.range t.size) (fun n hn => List.mem_range.2 (hlt n hn))
    (by simp)

/-- The subtree of a node is what is below it. -/
theorem mem_subtree (hlt : ∀ n, t.Below m n → n < t.size) : n ∈ t.subtree m ↔ t.Below m n :=
  Search.mem_depthFirst (List.range t.size) (fun n hn => List.mem_range.2 (hlt n hn))
    (by simp) n

/-- The subtree of a node has no node twice. -/
theorem nodup_subtree (hlt : ∀ n, t.Below m n → n < t.size) : (t.subtree m).Nodup :=
  Search.nodup_depthFirst (List.range t.size) (fun n hn => List.mem_range.2 (hlt n hn))
    (by simp)

/-- What the index holds under a chip is a node met on it. -/
theorem of_get?_index {c : Chip} (hn : t.index.get? c = some n) :
    n ∈ t.reached ∧ t.chip? n = some c := by
  unfold index at hn
  generalize t.reached = met at hn ⊢
  induction met using List.reverseRecOn with
  | nil => simp at hn
  | append_singleton init m ih =>
      rw [List.foldl_append, List.foldl_cons, List.foldl_nil] at hn
      have hinit := fun h => (ih h).imp_left (List.mem_append_left [m])
      cases hm : t.chip? m with
      | none =>
          simp only [hm] at hn
          exact hinit hn
      | some b =>
          simp only [hm, ChipIndex.get?_set] at hn
          split at hn
          · next hcb =>
            obtain rfl := Option.some.inj hn
            exact ⟨by simp, hcb ▸ hm⟩
          · exact hinit hn

/-- The index holds something under the chip of every node met. -/
theorem exists_get?_index {c : Chip} (hn : n ∈ t.reached) (hc : t.chip? n = some c) :
    ∃ m, t.index.get? c = some m := by
  unfold index
  generalize t.reached = met at hn ⊢
  induction met using List.reverseRecOn with
  | nil => simp at hn
  | append_singleton init m ih =>
      rw [List.foldl_append, List.foldl_cons, List.foldl_nil]
      rcases List.mem_append.1 hn with hn | hn
      · obtain ⟨k, hk⟩ := ih hn
        cases hm : t.chip? m with
        | none => exact ⟨k, hk⟩
        | some b =>
            simp only [ChipIndex.get?_set]
            split
            · exact ⟨m, rfl⟩
            · exact ⟨k, hk⟩
      · obtain rfl := List.mem_singleton.1 hn
        simp only [hc, ChipIndex.get?_set, if_pos]
        exact ⟨n, rfl⟩

namespace IsProper

variable (h : t.IsProper)
include h

/-- The nodes met on a walk are those below the root. The walk takes as many steps as the row has
nodes, and that is enough. -/
theorem mem_reached : n ∈ t.reached ↔ t.Below t.root n :=
  RouteTree.mem_reached fun _ => h.lt_size

/-- No node is met twice. -/
theorem nodup_reached : t.reached.Nodup :=
  RouteTree.nodup_reached fun _ => h.lt_size

/-- The chips of a tree are those of the nodes below the root. -/
theorem mem_reachedChips {c : Chip} :
    c ∈ t.reachedChips ↔ ∃ n, t.Below t.root n ∧ t.chip? n = some c := by
  simp only [reachedChips, List.mem_filterMap, h.mem_reached]

/-- Each chip of a proper tree has one node. -/
theorem nodup_reachedChips : t.reachedChips.Nodup := by
  refine List.pairwise_filterMap.2 (h.nodup_reached.imp_of_mem ?_)
  rintro m n hm hn hne b hb b' hb' rfl
  exact hne (h.eq_of_chip? (h.mem_reached.1 hm) (h.mem_reached.1 hn) (hb.trans hb'.symm))

/-- Every node met is on a chip. -/
theorem length_reachedChips : t.reachedChips.length = t.reachedCount := by
  rw [reachedChips, List.length_filterMap_eq_countP, reachedCount, List.countP_eq_length]
  intro n hn
  exact Option.isSome_iff_exists.2 (exists_chip?_iff.2 (h.lt_size (h.mem_reached.1 hn)))

/-- The index of a proper tree holds the nodes below the root, each under its chip. -/
theorem get?_index {c : Chip} :
    t.index.get? c = some n ↔ t.Below t.root n ∧ t.chip? n = some c := by
  constructor
  · intro hn
    obtain ⟨hmem, hc⟩ := of_get?_index hn
    exact ⟨h.mem_reached.1 hmem, hc⟩
  · rintro ⟨hb, hc⟩
    obtain ⟨m, hm⟩ := exists_get?_index (h.mem_reached.2 hb) hc
    obtain ⟨hmem, hmc⟩ := of_get?_index hm
    rw [hm, h.eq_of_chip? (h.mem_reached.1 hmem) hb (hmc.trans hc.symm)]

/-! ### Terminals -/

/-- The endpoints a tree delivers to are those that hang off the nodes below the root. -/
theorem mem_terminals {x : Terminal} : x ∈ t.terminals ↔
    ∃ n, t.Below t.root n ∧ t.chip? n = some x.chip ∧ (x.route, x.endpoint) ∈ t.endings n := by
  simp only [terminals, List.mem_flatMap, h.mem_reached, mem_terminalsAt]

/-- How often a tree delivers somewhere is seen at the one node on the chip. -/
theorem count_terminals {x : Terminal} (hn : t.Below t.root n) (hc : t.chip? n = some x.chip) :
    t.terminals.count x = (t.endings n).count (x.route, x.endpoint) := by
  have hmem := h.mem_reached.2 hn
  -- The node is met once, so all other nodes met are on other chips.
  have hperm := List.perm_cons_erase hmem
  have hnot : x ∉ (t.reached.erase n).flatMap t.terminalsAt := by
    simp only [List.mem_flatMap, mem_terminalsAt, not_exists, not_and]
    intro m hm hmc
    have hm := (h.nodup_reached.mem_erase_iff).1 hm
    exact absurd (h.eq_of_chip? (h.mem_reached.1 hm.2) hn (hmc.trans hc.symm)) hm.1
  rw [terminals, (hperm.flatMap_right _).count_eq, List.flatMap_cons, List.count_append,
    List.count_eq_zero.2 hnot, Nat.add_zero, terminalsAt_eq hc]
  have hinj : Function.Injective fun y : Option Route × Endpoint =>
      (⟨x.chip, y.1, y.2⟩ : Terminal) := by
    rintro ⟨_, _⟩ ⟨_, _⟩ heq
    cases heq
    rfl
  exact List.count_map_of_injective (t.endings n) _ hinj (x.route, x.endpoint)

end IsProper

/-- A node that delivers somewhere has one in the other tree that delivers the same from its
chip. -/
def DeliversIn (t u : RouteTree) : Prop :=
  ∀ n c, t.Below t.root n → t.chip? n = some c → t.endings n ≠ [] →
    ∃ m, u.Below u.root m ∧ u.chip? m = some c ∧ u.endings m = t.endings n

/-- What one tree delivers, the other delivers as often at least. -/
theorem DeliversIn.count_le {u : RouteTree} (h : t.DeliversIn u) (ht : t.IsProper)
    (hu : u.IsProper) (x : Terminal) : t.terminals.count x ≤ u.terminals.count x := by
  -- What is delivered at all is delivered by one node, and the other tree has a match for that.
  by_cases hx : x ∈ t.terminals
  · obtain ⟨n, hn, hc, hmem⟩ := ht.mem_terminals.1 hx
    obtain ⟨m, hm, hmc, heq⟩ := h n x.chip hn hc (List.ne_nil_of_mem hmem)
    refine Nat.le_of_eq ?_
    rw [ht.count_terminals hn hc, hu.count_terminals hm hmc, heq]
  · rw [List.count_eq_zero.2 hx]
    exact Nat.zero_le _

/-- Proper trees that deliver the same from every chip have the same terminals. -/
theorem DeliversIn.perm {u : RouteTree} (h : t.DeliversIn u) (h' : u.DeliversIn t)
    (ht : t.IsProper) (hu : u.IsProper) : t.terminals.Perm u.terminals :=
  List.perm_iff_count.2 fun x => Nat.le_antisymm (h.count_le ht hu x) (h'.count_le hu ht x)

end Multicast.RouteTree
