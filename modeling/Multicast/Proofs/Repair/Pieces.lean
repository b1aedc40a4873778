import Multicast.Proofs.Machine.Paths
import Multicast.Proofs.Tree.Forest
import Multicast.Tree.ChipIndex

/-!
# `Multicast.Proofs.Repair.Pieces`: a tree under repair

From the first copied node to the last detour a tree under repair is a forest of
pieces over working chips, with an index of all of its nodes, and every edge between
nodes follows a working link. `Pieces` is that invariant. Copying and mending make
four kinds of changes; one lemma for each says that the pieces stay sound.
-/

set_option autoImplicit false

namespace Multicast

/-- Every edge between nodes follows a working link from chip to chip. -/
def RouteTree.EdgesWork (f : Fabric) (t : RouteTree) : Prop :=
  ∀ {p route n}, (route, n) ∈ t.childNodes p → ∃ source link target,
    t.chip? p = some source ∧ route = some (.link link) ∧ t.chip? n = some target ∧
      f.follow? source link = some target

/-- Below the root a tree is over working chips, and every edge between nodes follows a working link
to the chip of its node. -/
structure RouteTree.WorksOn (t : RouteTree) (f : Fabric) : Prop where
  live : ∀ {n c}, t.Below t.root n → t.chip? n = some c → f.isChip c = true
  lands : ∀ {p route n}, t.Below t.root p → (route, n) ∈ t.childNodes p → ∃ source link target,
    t.chip? p = some source ∧ route = some (.link link) ∧ t.chip? n = some target ∧
      f.follow? source link = some target

/-- A forest over working chips and links, with the index of its nodes. -/
structure Pieces (f : Fabric) (t : RouteTree) (index : ChipMap) : Prop where
  forest : t.IsForest
  indexed : ∀ {c n}, index[c]? = some n ↔ t.chip? n = some c
  works : t.EdgesWork f
  live : ∀ {n c}, t.chip? n = some c → f.isChip c = true

namespace Pieces

variable {f : Fabric} {t : RouteTree} {index : ChipMap} {m n p : NodeId} {c d : Chip}

/-- There is one node on a chip. -/
theorem eq_of_chip? (h : Pieces f t index) (hm : t.chip? m = some c) (hn : t.chip? n = some c) :
    m = n :=
  Option.some.inj ((h.indexed.2 hm).symm.trans (h.indexed.2 hn))

/-- A node is on one chip. -/
theorem eq_of_indexed (h : Pieces f t index) (hc : index[c]? = some n) (hd : index[d]? = some n) :
    c = d :=
  Option.some.inj ((h.indexed.1 hc).symm.trans (h.indexed.1 hd))

/-- What hangs below a node is joined to it over working links. -/
theorem joined_of_below (h : Pieces f t index) (hb : t.Below m n) (hc : t.chip? m = some c)
    (hd : t.chip? n = some d) : f.Joined c d := by
  refine hb.induct (motive := fun n => ∀ {d}, t.chip? n = some d → f.Joined c d) ?_ ?_ hd
  · intro d hd
    exact Option.some.inj (hc.symm.trans hd) ▸ .refl
  · intro p k _ hk ih d hd
    obtain ⟨route, hk⟩ := RouteTree.mem_kids.1 hk
    obtain ⟨source, link, target, hs, -, ht, hlink⟩ := h.works hk
    obtain rfl := Option.some.inj (ht.symm.trans hd)
    exact (ih hs).tail ⟨link, hlink⟩

/-- A look-up in an index with one chip more. -/
theorem getElem?_insert {b : Chip} :
    (index.insert c n)[b]? = if b = c then some n else index[b]? := by
  simp only [Std.ExtTreeMap.getElem?_insert, Std.LawfulEqOrd.compare_eq_iff_eq, @eq_comm _ c]

/-- The pieces that are only a root. -/
theorem single (hc : f.isChip c = true) :
    Pieces f (.single c) ((∅ : ChipMap).insert c 0) where
  forest := RouteTree.isForest_single c
  indexed {b n} := by
    rw [getElem?_insert, RouteTree.chip?_single]
    simp only [Std.ExtTreeMap.getElem?_empty, Option.ite_none_right_eq_some, Option.some.injEq]
    exact ⟨fun h => ⟨h.2.symm, h.1.symm⟩, fun h => ⟨h.2.symm, h.1.symm⟩⟩
  works {p _ _} h := by
    have hk : (RouteTree.single c).kids p ≠ [] :=
      List.ne_nil_of_mem (RouteTree.mem_kids.2 ⟨_, h⟩)
    simp at hk
  live h := (RouteTree.chip?_single.1 h).2 ▸ hc

/-- A new node on a working chip that has none. -/
theorem addNode (h : Pieces f t index) (hnew : index[c]? = none) (hc : f.isChip c = true) :
    Pieces f (t.addNode c) (index.insert c t.size) where
  forest := h.forest.addNode c
  indexed {b n} := by
    have hsize : ∀ {b}, t.chip? t.size ≠ some b := fun hb =>
      Nat.lt_irrefl _ (RouteTree.lt_size_of_chip? hb)
    rw [getElem?_insert, RouteTree.chip?_addNode]
    -- The new chip has the new node; no node of another chip has that number.
    by_cases hb : b = c
    · subst hb
      simp only [if_true, Option.some.injEq]
      constructor
      · rintro rfl
        simp
      · intro hn
        split at hn
        · next heq => exact heq.symm
        · exact absurd (h.indexed.2 hn) (by simp [hnew])
    · rw [if_neg hb, h.indexed]
      split
      · next hn =>
        subst hn
        exact ⟨fun h => absurd h hsize, fun h => absurd (Option.some.inj h).symm hb⟩
      · exact Iff.rfl
  works {p route n} hk := by
    rw [RouteTree.childNodes_addNode] at hk
    obtain ⟨source, link, target, hs, hr, ht, hf⟩ := h.works hk
    have hold : ∀ {m b}, t.chip? m = some b → (t.addNode c).chip? m = some b := by
      intro m b hm
      rw [RouteTree.chip?_addNode, if_neg (Nat.ne_of_lt (RouteTree.lt_size_of_chip? hm)), hm]
    exact ⟨source, link, target, hold hs, hr, hold ht, hf⟩
  live {n b} hn := by
    rw [RouteTree.chip?_addNode] at hn
    split at hn
    · exact Option.some.inj hn ▸ hc
    · exact h.live hn

/-- A top is hung up over a working link. -/
theorem attach (h : Pieces f t index) (hn : t.IsTop n) (hnp : ¬ t.Below n p) {link : Direction}
    (hc : t.chip? p = some c) (hd : t.chip? n = some d) (hlink : f.follow? c link = some d) :
    Pieces f (t.addEdge p ⟨some (.link link), .node n⟩) index where
  forest := h.forest.attach (RouteTree.lt_size_of_chip? hc) _ hn hnp
  indexed {b k} := by
    rw [RouteTree.chip?_addEdge]
    exact h.indexed
  works {q route k} hk := by
    rw [RouteTree.childNodes_addEdge_node (RouteTree.lt_size_of_chip? hc)] at hk
    simp only [RouteTree.chip?_addEdge]
    split at hk
    · next hq =>
      -- Below the parent the edge is an old one or the new one.
      rcases List.mem_append.1 hk with hk | hk
      · exact h.works hk
      · obtain ⟨rfl, rfl⟩ := Prod.mk.inj (List.mem_singleton.1 hk)
        exact ⟨c, link, d, hq ▸ hc, rfl, hd, hlink⟩
    · exact h.works hk
  live hn := h.live (by simpa using hn)

/-- A node is taken from its parent. -/
theorem detach (h : Pieces f t index) (hk : n ∈ t.kids p) :
    Pieces f (t.removeEdge p (.node n)) index where
  forest := h.forest.detach hk
  indexed {b k} := by
    rw [RouteTree.chip?_removeEdge]
    exact h.indexed
  works {q route k} hk := by
    rw [RouteTree.childNodes_removeEdge] at hk
    simp only [RouteTree.chip?_removeEdge]
    split at hk
    · exact h.works (List.mem_of_mem_eraseP hk)
    · exact h.works hk
  live hn := h.live (by simpa using hn)

/-- An endpoint is hung off a node. -/
theorem addTerminal (h : Pieces f t index) (hp : p < t.size) (route : Option Route)
    (x : Endpoint) : Pieces f (t.addEdge p ⟨route, .terminal x⟩) index where
  forest := h.forest.of_kids (by simp) (RouteTree.kids_addEdge_terminal hp route x)
  indexed {b k} := by
    rw [RouteTree.chip?_addEdge]
    exact h.indexed
  works {q r k} hk := by
    rw [RouteTree.childNodes_addEdge_terminal hp] at hk
    simpa using h.works hk
  live hn := h.live (by simpa using hn)

end Pieces

end Multicast
