import Multicast.Proofs.Repair.Reconnect

/-!
# `Multicast.Proofs.Repair.Prune`: pruning what forwards nowhere

Pruning starts from a mended tree and takes nodes from the part below the root; the
row keeps them as tops with nothing below. `Prunes` is the invariant, with the chips
that may forward nowhere as a parameter: pruning from a chip takes it off the list
(`Prunes.prune`), so after all candidates nothing is excused any more.

Each removal takes a chip from the index. That is why the bound in `pruneFrom` suffices,
and why the index shrinks by as many chips as nodes are counted as removed.
-/

set_option autoImplicit false

namespace Multicast.Reconnect

/-- A tree being pruned: below the root it is over working chips and links, every chip there is in
the index, and nothing hangs off the nodes elsewhere. -/
structure Prunes (f : Fabric) (cut : CutTree) (excused : NodeId → Chip → Prop) (t : RouteTree)
    (index : ChipMap) : Prop where
  forest : t.IsForest
  root : t.root = 0
  top : t.IsTop 0
  works : t.EdgesWork f
  live : ∀ {n c}, t.chip? n = some c → f.isChip c = true
  alone : ∀ {m n c}, t.chip? m = some c → t.chip? n = some c → m = n
  kept : ∀ {c : Chip} {n : NodeId}, cut.index[c]? = some n → t.chip? n = some c
  indexed : ∀ {c : Chip} {n : NodeId}, index[c]? = some n ↔ t.chip? n = some c ∧ t.Below 0 n
  endings : ∀ {n}, t.endings n = cut.tree.endings n
  bare : ∀ {n}, ¬ t.Below 0 n → t.endings n = []
  leaf : ∀ {m c}, t.Below 0 m → t.isLeaf m = true → t.chip? m = some c → m = 0 ∨ excused m c

/-- The index of a tree has at most as many chips as the row has nodes. -/
theorem size_index_le {t : RouteTree} {index : ChipMap}
    (h : ∀ {c : Chip} {n : NodeId}, index[c]? = some n → t.chip? n = some c) :
    index.size ≤ t.size := by
  have hmem : ∀ x ∈ index.toList, t.chip? x.2 = some x.1 := fun x hx =>
    h (Std.ExtTreeMap.mem_toList_iff_getElem?_eq_some.1 hx)
  -- Different chips have different nodes, since a node is on one chip.
  have hnodup : (index.toList.map (·.2)).Nodup := by
    refine List.pairwise_map.2 (Std.ExtTreeMap.distinct_keys_toList.imp_of_mem ?_)
    intro x y hx hy hxy heq
    refine hxy (Std.LawfulEqOrd.compare_eq_iff_eq.2 (Option.some.inj ?_))
    rw [← hmem x hx, ← hmem y hy, heq]
  have hsub : index.toList.map (·.2) ⊆ List.range t.size := by
    intro n hn
    obtain ⟨x, hx, rfl⟩ := List.mem_map.1 hn
    exact List.mem_range.2 (RouteTree.lt_size_of_chip? (hmem x hx))
  simpa using (hnodup.subperm hsub).length_le

/-- A chip taken from an index that has it leaves one chip less. -/
theorem size_erase {index : ChipMap} {c : Chip} {n : NodeId} (h : index[c]? = some n) :
    (index.erase c).size + 1 = index.size := by
  have hmem : index.contains c = true := by
    simp [Std.ExtTreeMap.contains_eq_isSome_getElem?, h]
  have hpos : index.size ≠ 0 := by
    intro h0
    rw [Std.ExtTreeMap.eq_empty_iff_size_eq_zero.2 h0] at h
    simp at h
  rw [Std.ExtTreeMap.size_erase, if_pos hmem]
  omega

namespace Prunes

variable {f : Fabric} {cut : CutTree} {excused excused' : NodeId → Chip → Prop} {t : RouteTree}
  {index : ChipMap} {m n p : NodeId} {c : Chip}

/-- What excuses a leaf may be put in another way, as long as it covers the leaves there are. -/
theorem congr (h : Prunes f cut excused t index)
    (hex : ∀ {m c}, t.Below 0 m → t.isLeaf m = true → t.chip? m = some c → m ≠ 0 →
      excused m c → excused' m c) : Prunes f cut excused' t index :=
  { h with
    leaf := fun {m c} hb hm hc => by
      by_cases h0 : m = 0
      · exact .inl h0
      · exact (h.leaf hb hm hc).imp_right (hex hb hm hc h0) }

/-- A mended tree has one top, so all of it is below the root. All nodes are below the root, so what
is said of the others holds of none. -/
theorem of_mends {excused : Chip → Prop} (h : Mends f cut (· = 0) excused t index) :
    Prunes f cut (fun _ c => excused c) t index where
  forest := h.pieces.forest
  root := h.root
  top := h.top.2 rfl
  works := h.pieces.works
  live := h.pieces.live
  alone := h.pieces.eq_of_chip?
  kept hc := h.pieces.indexed.1 (h.kept hc)
  indexed {c n} := by
    rw [h.pieces.indexed]
    refine ⟨fun hc => ⟨hc, ?_⟩, And.left⟩
    obtain ⟨r, hr, hb⟩ := h.pieces.forest.below_top (RouteTree.lt_size_of_chip? hc)
    exact h.top.1 hr ▸ hb
  endings := h.endings
  bare {n} hn := by
    by_cases hlt : n < t.size
    · obtain ⟨r, hr, hb⟩ := h.pieces.forest.below_top hlt
      exact absurd (h.top.1 hr ▸ hb) hn
    · rw [RouteTree.endings, RouteTree.edges_eq_nil (Nat.le_of_not_lt hlt), List.filterMap_nil]
  leaf _ hm hc := h.leaf hm hc

/-- Without a leaf below the root the others stay below it. A leaf is on the way to no other node.
-/
theorem below_detach (h : Prunes f cut excused t index) (hk : n ∈ t.kids p)
    (hn : t.isLeaf n = true) :
    (t.removeEdge p (.node n)).Below 0 m ↔ t.Below 0 m ∧ m ≠ n := by
  have hkids : ∀ {q k}, k ∈ (t.removeEdge p (.node n)).kids q ↔ k ∈ t.kids q ∧ ¬ (q = p ∧ k = n) :=
    h.forest.mem_kids_detach
  constructor
  · intro hb
    refine ⟨hb.mono fun _ _ hk => (hkids.1 hk).1, ?_⟩
    rintro rfl
    have := ((h.forest.isTop_detach hk).2 (.inr rfl)).eq_of_below hb
    exact h.top.2 p (this ▸ hk)
  · rintro ⟨hb, hne⟩
    -- No chain leads over the leaf, so none is cut.
    refine hb.induct (motive := fun m => m ≠ n → (t.removeEdge p (.node n)).Below 0 m)
      (fun _ => .refl) ?_ hne
    intro q k _ hkq ih hkn
    have hqn : q ≠ n := by
      rintro rfl
      simp [(RouteTree.isLeaf_iff.1 hn).1] at hkq
    exact (ih hqn).step (hkids.2 ⟨hkq, fun heq => hkn heq.2⟩)

/-- A leaf is taken from its parent, which may then be a leaf too. The nodes below the root lose
one, the index loses its chip, and nothing hung off it. -/
theorem remove (h : Prunes f cut (fun m c => excused m c ∨ m = n) t index) (hk : n ∈ t.kids p)
    (hn : t.isLeaf n = true) (hc : t.chip? n = some c) :
    Prunes f cut (fun m c => excused m c ∨ m = p) (t.removeEdge p (.node n)) (index.erase c) where
  forest := h.forest.detach hk
  root := h.root
  top := (h.forest.isTop_detach hk).2 (.inl h.top)
  works {q route k} hq := by
    rw [RouteTree.childNodes_removeEdge] at hq
    simp only [RouteTree.chip?_removeEdge]
    split at hq
    · exact h.works (List.mem_of_mem_eraseP hq)
    · exact h.works hq
  live hm := h.live (by simpa using hm)
  alone hm hn := h.alone (by simpa using hm) (by simpa using hn)
  kept hc := by simpa using h.kept hc
  indexed {b m} := by
    rw [RouteTree.chip?_removeEdge, h.below_detach hk hn, Std.ExtTreeMap.getElem?_erase]
    simp only [Std.LawfulEqOrd.compare_eq_iff_eq]
    split
    · next hcb =>
      subst hcb
      simp only [reduceCtorEq, false_iff]
      exact fun ⟨hm, _, hmn⟩ => hmn (h.alone hm hc)
    · next hcb =>
      rw [h.indexed]
      refine ⟨fun ⟨hm, hb⟩ => ⟨hm, hb, ?_⟩, fun ⟨hm, hb, _⟩ => ⟨hm, hb⟩⟩
      rintro rfl
      exact hcb (Option.some.inj (hc.symm.trans hm))
  endings {m} := by
    rw [RouteTree.endings_removeEdge]
    exact h.endings
  bare {m} hm := by
    rw [RouteTree.endings_removeEdge]
    rw [h.below_detach hk hn, not_and_not_right] at hm
    by_cases hb : t.Below 0 m
    · exact hm hb ▸ (RouteTree.isLeaf_iff.1 hn).2
    · exact h.bare hb
  leaf {m b} hb hm hbm := by
    rw [h.below_detach hk hn] at hb
    rw [RouteTree.chip?_removeEdge] at hbm
    -- Only the parent lost an edge.
    by_cases hmp : m = p
    · exact .inr (.inr hmp)
    · rw [RouteTree.isLeaf_iff, RouteTree.kids_removeEdge, if_neg hmp,
        RouteTree.endings_removeEdge, ← RouteTree.isLeaf_iff] at hm
      exact (h.leaf hb.1 hm hbm).imp_right fun hx => .inl (hx.resolve_right hb.2)

/-- A leaf but the root has a parent below the root. The parent is the one node with an edge there,
and since a leaf has no edges it is another node. -/
theorem exists_parent (h : Prunes f cut excused t index) (hn : t.Below 0 n) (h0 : n ≠ 0)
    (hleaf : t.isLeaf n = true) :
    ∃ p, t.parent? n = some p ∧ n ∈ t.kids p ∧ t.Below 0 p ∧ p ≠ n := by
  obtain heq | ⟨q, hq, hk⟩ := hn.cases_tail
  · exact absurd heq.symm h0
  · cases hparent : t.parent? n with
    | none => exact absurd hk (RouteTree.parent?_eq_none hparent q)
    | some p =>
        obtain rfl := h.forest.parent_unique (RouteTree.parent?_eq_some hparent) hk
        refine ⟨p, rfl, hk, hq, ?_⟩
        rintro rfl
        simp [(RouteTree.isLeaf_iff.1 hleaf).1] at hk

/-- Pruning stops at the root and at a node that still forwards, with any bound. -/
theorem pruneFrom_of_stop {bound : Nat} {s : Pruning}
    (hstop : ¬ (n ≠ s.tree.root ∧ s.tree.isLeaf n = true)) :
    Reconnect.pruneFrom bound s n = s := by
  cases bound with
  | zero => rfl
  | succ bound => rw [Reconnect.pruneFrom, if_neg hstop]

/-- At a leaf pruning takes it off its parent and goes on there. -/
theorem pruneFrom_of_leaf {bound : Nat} {s : Pruning}
    (hgo : n ≠ s.tree.root ∧ s.tree.isLeaf n = true) (hp : s.tree.parent? n = some p)
    (hc : s.tree.chip? n = some c) :
    Reconnect.pruneFrom (bound + 1) s n = Reconnect.pruneFrom bound
      ⟨s.tree.removeEdge p (.node n), s.index.erase c, s.removed + 1⟩ p := by
  rw [Reconnect.pruneFrom, if_pos hgo, hp]
  simp only [hc]

/-- Pruning upwards from a node; each removal takes a chip from the index. By induction on the
bound, which is no less than the chips in the index. -/
theorem pruneFrom {bound : Nat} {s : Pruning}
    (h : Prunes f cut (fun m c => excused m c ∨ m = n) s.tree s.index) (hn : s.tree.Below 0 n)
    (hbound : s.index.size ≤ bound) :
    Prunes f cut excused (Reconnect.pruneFrom bound s n).tree
        (Reconnect.pruneFrom bound s n).index ∧
      (Reconnect.pruneFrom bound s n).index.size + (Reconnect.pruneFrom bound s n).removed =
        s.index.size + s.removed := by
  induction bound generalizing s n with
  | zero =>
      -- The node is on a chip of the index, so the index is not empty.
      obtain ⟨c, hc⟩ := RouteTree.exists_chip?_iff.2 (h.forest.lt_of_below h.top.1 hn)
      have := size_erase (h.indexed.2 ⟨hc, hn⟩)
      omega
  | succ bound ih =>
      by_cases hgo : n ≠ s.tree.root ∧ s.tree.isLeaf n = true
      · obtain ⟨c, hc⟩ := RouteTree.exists_chip?_iff.2 (h.forest.lt_of_below h.top.1 hn)
        obtain ⟨p, hparent, hk, hp, hpn⟩ := h.exists_parent hn (h.root ▸ hgo.1) hgo.2
        have hsize := size_erase (h.indexed.2 ⟨hc, hn⟩)
        rw [pruneFrom_of_leaf hgo hparent hc]
        obtain ⟨hprunes, hcount⟩ :=
          ih (s := ⟨s.tree.removeEdge p (.node n), s.index.erase c, s.removed + 1⟩)
            (h.remove hk hgo.2 hc) ((h.below_detach hk hgo.2).2 ⟨hp, hpn⟩)
            (show (s.index.erase c).size ≤ bound by omega)
        refine ⟨hprunes, hcount.trans ?_⟩
        show (s.index.erase c).size + (s.removed + 1) = s.index.size + s.removed
        omega
      · rw [pruneFrom_of_stop hgo]
        -- The node is the root or forwards somewhere, so it needs no excuse.
        refine ⟨h.congr fun {m c} _ hleaf _ h0 hx => hx.resolve_right ?_, rfl⟩
        rintro rfl
        exact hgo ⟨h.root.symm ▸ h0, hleaf⟩

/-- Pruning from a chip: it needs no excuse any more. A chip with a node below the root is on no
other node, so it is this node that needs no excuse. -/
theorem prune {excused : Chip → Prop} {s : Pruning}
    (h : Prunes f cut (fun _ b => b = c ∨ excused b) s.tree s.index) :
    Prunes f cut (fun _ b => excused b) (Reconnect.prune s c).tree
        (Reconnect.prune s c).index ∧
      (Reconnect.prune s c).index.size + (Reconnect.prune s c).removed =
        s.index.size + s.removed := by
  unfold Reconnect.prune
  cases hn : s.index[c]? with
  | none =>
      -- The chip has no node below the root any more.
      refine ⟨h.congr fun {m b} hb _ hc _ hx => hx.resolve_left ?_, rfl⟩
      rintro rfl
      simp [h.indexed.2 ⟨hc, hb⟩] at hn
  | some n =>
      obtain ⟨hc, hb⟩ := h.indexed.1 hn
      refine pruneFrom (h.congr fun {m b} _ _ hm _ hx => ?_) hb
        (size_index_le fun hm => (h.indexed.1 hm).1)
      rcases hx with rfl | hx
      · exact .inr (h.alone hm hc)
      · exact .inl hx

/-- Pruning from every chip of a list. By induction on the chips. -/
theorem foldl {excused : Chip → Prop} {s : Pruning} {chips : List Chip}
    (h : Prunes f cut (fun _ b => b ∈ chips ∨ excused b) s.tree s.index) :
    Prunes f cut (fun _ b => excused b) (chips.foldl Reconnect.prune s).tree
        (chips.foldl Reconnect.prune s).index ∧
      (chips.foldl Reconnect.prune s).index.size + (chips.foldl Reconnect.prune s).removed =
        s.index.size + s.removed := by
  induction chips generalizing s with
  | nil => exact ⟨h.congr fun _ _ _ _ hx => hx.resolve_left (by simp), rfl⟩
  | cons c chips ih =>
      obtain ⟨hprunes, hcount⟩ := prune (c := c) (h.congr fun _ _ _ _ hx => by
        rwa [List.mem_cons, or_assoc] at hx)
      obtain ⟨hall, hcount'⟩ := ih (s := Reconnect.prune s c) hprunes
      exact ⟨hall, hcount'.trans hcount⟩

end Prunes

end Multicast.Reconnect
