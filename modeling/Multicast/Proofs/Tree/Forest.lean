import Multicast.Proofs.Tree.Edges

/-!
# `Multicast.Proofs.Tree.Forest`: rows of nodes that form a forest

While a tree is copied and mended, its row holds several trees: pieces wait to be
hung up again, and pruned nodes stay behind. `IsForest` says that no node has two
parents and that every node lies below a top, a node without a parent; so there
are no cycles. Which nodes are tops is said beside it (`IsTop`).

Every change made to a tree is one of four, and each has a lemma that keeps the
forest and one that says what becomes of the tops:

* `IsForest.addNode`: the new node is a top;
* `IsForest.attach`: a top hung below a node that is not below it is a top no more;
* `IsForest.detach`: a node taken from its parent is a top;
* `IsForest.of_kids`: nothing else matters.
-/

set_option autoImplicit false

namespace Multicast.RouteTree

/-- A node of the row that no edge leads to. -/
def IsTop (t : RouteTree) (n : NodeId) : Prop :=
  n < t.size ∧ ∀ p, n ∉ t.kids p

/-- No node has two parents, and every node lies below a top. -/
structure IsForest (t : RouteTree) : Prop where
  kid_lt : ∀ {p n}, n ∈ t.kids p → n < t.size
  nodup_kids : ∀ p, (t.kids p).Nodup
  parent_unique : ∀ {p q n}, n ∈ t.kids p → n ∈ t.kids q → p = q
  below_top : ∀ {n}, n < t.size → ∃ r, t.IsTop r ∧ t.Below r n

variable {t u : RouteTree} {m n p q : NodeId}

/-- Nodes stay below one another where no edge between nodes goes. -/
theorem Below.mono (h : t.Below m n) (hsub : ∀ p k, k ∈ t.kids p → k ∈ u.kids p) :
    u.Below m n :=
  Relation.ReflTransGen.mono (fun p k hk => adjacent_iff.2 (hsub p k (adjacent_iff.1 hk))) m n h

/-- The last edge of a chain, if it has one. -/
theorem Below.cases_tail (h : t.Below m n) : m = n ∨ ∃ p, t.Below m p ∧ n ∈ t.kids p := by
  rcases Relation.ReflTransGen.cases_tail h with h | ⟨p, hp, hk⟩
  · exact .inl h.symm
  · exact .inr ⟨p, hp, adjacent_iff.1 hk⟩

/-- Whatever holds of a node and passes from parents to kids holds below the node. -/
theorem Below.induct {motive : NodeId → Prop} (h : t.Below m n) (base : motive m)
    (step : ∀ p k, t.Below m p → k ∈ t.kids p → motive p → motive k) : motive n := by
  induction h with
  | refl => exact base
  | tail hp hk ih => exact step _ _ hp (adjacent_iff.1 hk) ih

/-- Whatever holds of a node and passes from kids to parents holds above the node. -/
theorem Below.induct_up {motive : NodeId → Prop} (h : t.Below m n) (base : motive n)
    (step : ∀ p k, k ∈ t.kids p → motive k → motive p) : motive m := by
  induction h with
  | refl => exact base
  | tail _ hk ih => exact ih (step _ _ (adjacent_iff.1 hk) base)

/-- A top is below itself only. -/
theorem IsTop.eq_of_below (h : t.IsTop n) (hb : t.Below m n) : m = n :=
  hb.cases_tail.resolve_right fun ⟨p, _, hk⟩ => h.2 p hk

/-- Where every edge to a node stays in the row, chains of edges do. -/
theorem Below.lt_size (hb : t.Below m n) (hrow : ∀ {p n}, n ∈ t.kids p → n < t.size)
    (hm : m < t.size) : n < t.size :=
  hb.cases_tail.elim (fun he => he ▸ hm) fun ⟨_, _, hk⟩ => hrow hk

/-- What is below a node of the row is in the row. -/
theorem IsForest.lt_of_below (h : t.IsForest) (hm : m < t.size) (hb : t.Below m n) : n < t.size :=
  hb.lt_size h.kid_lt hm

/-! ### What the edges to nodes decide -/

/-- What is below what is decided by the children alone. -/
theorem below_congr (hk : ∀ p, u.kids p = t.kids p) : u.Below m n ↔ t.Below m n :=
  ⟨fun h => h.mono fun p _ hm => hk p ▸ hm, fun h => h.mono fun p _ hm => (hk p).symm ▸ hm⟩

/-- Which nodes are tops is decided by the row and the children. -/
theorem isTop_congr (hs : u.size = t.size) (hk : ∀ p, u.kids p = t.kids p) :
    u.IsTop n ↔ t.IsTop n := by
  simp only [IsTop, hs, hk]

/-- Whether there is a forest is decided by them too, so that a change of endpoints keeps it. -/
theorem IsForest.of_kids (h : t.IsForest) (hs : u.size = t.size) (hk : ∀ p, u.kids p = t.kids p) :
    u.IsForest where
  kid_lt hn := by
    rw [hk] at hn
    exact hs ▸ h.kid_lt hn
  nodup_kids p := hk p ▸ h.nodup_kids p
  parent_unique hp hq := by
    rw [hk] at hp hq
    exact h.parent_unique hp hq
  below_top hn := by
    obtain ⟨r, hr, hb⟩ := h.below_top (hs ▸ hn)
    exact ⟨r, (isTop_congr hs hk).2 hr, (below_congr hk).2 hb⟩

/-! ### The four changes -/

/-- A root alone has no children. -/
@[simp] theorem kids_single (c : Chip) (n : NodeId) : (single c).kids n = [] := by
  cases n <;> rfl

/-- No endpoint hangs off a root alone. -/
@[simp] theorem endings_single (c : Chip) (n : NodeId) : (single c).endings n = [] := by
  cases n <;> rfl

/-- A root alone is the one node, on its chip. -/
theorem chip?_single {c d : Chip} : (single c).chip? n = some d ↔ n = 0 ∧ c = d := by
  cases n <;> simp [chip?, single]

/-- And it is the one top. -/
theorem isTop_single {c : Chip} : (single c).IsTop n ↔ n = 0 := by
  simp only [IsTop, kids_single, List.not_mem_nil, not_false_eq_true, implies_true, and_true]
  exact Nat.lt_one_iff

/-- A root alone is a forest. -/
theorem isForest_single (c : Chip) : (single c).IsForest where
  kid_lt h := by simp at h
  nodup_kids p := by simp
  parent_unique h := by simp at h
  below_top {n} hn := ⟨n, isTop_single.2 (by simpa [single, size] using hn), .refl⟩

/-- A new node is a top, since no edge led behind the row. -/
theorem IsForest.isTop_addNode (h : t.IsForest) (c : Chip) :
    (t.addNode c).IsTop n ↔ t.IsTop n ∨ n = t.size := by
  simp only [IsTop, size_addNode, kids_addNode]
  constructor
  · rintro ⟨hlt, hk⟩
    rcases Nat.lt_succ_iff_lt_or_eq.1 hlt with hlt | rfl
    · exact .inl ⟨hlt, hk⟩
    · exact .inr rfl
  · rintro (⟨hlt, hk⟩ | rfl)
    · exact ⟨Nat.lt_succ_of_lt hlt, hk⟩
    · exact ⟨Nat.lt_succ_self _, fun p hk => Nat.lt_irrefl _ (h.kid_lt hk)⟩

/-- A new node stands alone. -/
theorem IsForest.addNode (h : t.IsForest) (c : Chip) : (t.addNode c).IsForest where
  kid_lt hn := by
    rw [kids_addNode] at hn
    exact Nat.lt_of_lt_of_le (h.kid_lt hn) (by simp)
  nodup_kids p := by simpa using h.nodup_kids p
  parent_unique hp hq := by
    rw [kids_addNode] at hp hq
    exact h.parent_unique hp hq
  below_top {n} hn := by
    have hkids : ∀ p, (t.addNode c).kids p = t.kids p := fun p => kids_addNode t c p
    rw [size_addNode] at hn
    -- Old nodes lie below the top they had, the new one below itself.
    rcases Nat.lt_succ_iff_lt_or_eq.1 hn with hn | rfl
    · obtain ⟨r, hr, hb⟩ := h.below_top hn
      exact ⟨r, (h.isTop_addNode c).2 (.inl hr), (below_congr hkids).2 hb⟩
    · exact ⟨t.size, (h.isTop_addNode c).2 (.inr rfl), .refl⟩

/-- Nothing hangs off a new node yet. -/
theorem not_below_newest (hp : p < t.size) (c : Chip) : ¬ (t.addNode c).Below t.size p := by
  intro hb
  -- The edges are the old ones, and no chain of them starts behind the row.
  rw [below_congr fun q => kids_addNode t c q] at hb
  exact Nat.lt_irrefl _ (hb.induct_up (motive := (· < t.size)) hp fun _ _ hk _ =>
    lt_size_of_mem_kids hk)

section Attach

variable (hp : p < t.size) (route : Option Route)
include hp

/-- A node hung below another is its child, beside those there were. -/
theorem mem_kids_attach {k : NodeId} : k ∈ (t.addEdge p ⟨route, .node n⟩).kids q ↔
    k ∈ t.kids q ∨ (q = p ∧ k = n) := by
  rw [kids_addEdge_node hp]
  split
  · next hq => simp [hq]
  · next hq => simp [hq]

/-- A node hung below another is no top any more. -/
theorem isTop_attach : (t.addEdge p ⟨route, .node n⟩).IsTop m ↔ t.IsTop m ∧ m ≠ n := by
  simp only [IsTop, size_addEdge, mem_kids_attach hp route]
  constructor
  · rintro ⟨hlt, hk⟩
    exact ⟨⟨hlt, fun q hq => hk q (.inl hq)⟩, fun hn => hk p (.inr ⟨rfl, hn⟩)⟩
  · rintro ⟨⟨hlt, hk⟩, hn⟩
    exact ⟨hlt, fun q hq => hq.elim (hk q) fun h => hn h.2⟩

/-- A top can be hung below any node that is not below it. -/
theorem IsForest.attach (h : t.IsForest) (hn : t.IsTop n) (hnp : ¬ t.Below n p) :
    (t.addEdge p ⟨route, .node n⟩).IsForest where
  kid_lt hk := by
    rw [size_addEdge]
    exact ((mem_kids_attach hp route).1 hk).elim h.kid_lt fun hk => hk.2 ▸ hn.1
  nodup_kids q := by
    rw [kids_addEdge_node hp]
    split
    · refine List.nodup_append.2 ⟨h.nodup_kids q, by simp, ?_⟩
      rintro a ha b hb rfl
      exact hn.2 q (List.mem_singleton.1 hb ▸ ha)
    · exact h.nodup_kids q
  parent_unique hq hr := by
    -- Two parents of a node: at most one of the two edges is new, and the node hung up had none.
    rcases (mem_kids_attach hp route).1 hq with hq' | ⟨hqp, hqn⟩ <;>
      rcases (mem_kids_attach hp route).1 hr with hr' | ⟨hrp, hrn⟩
    · exact h.parent_unique hq' hr'
    · exact absurd (hrn ▸ hq') (hn.2 _)
    · exact absurd (hqn ▸ hr') (hn.2 _)
    · exact hqp.trans hrp.symm
  below_top {x} hx := by
    rw [size_addEdge] at hx
    have hmono : ∀ {a b}, t.Below a b → (t.addEdge p ⟨route, .node n⟩).Below a b := fun hb =>
      hb.mono fun _ _ hk => (mem_kids_attach hp route).2 (.inl hk)
    obtain ⟨r, hr, hb⟩ := h.below_top hx
    by_cases hrn : r = n
    · -- What was below the top hung up is now below the top of its new parent.
      subst hrn
      obtain ⟨s, hs, hsp⟩ := h.below_top hp
      have hsr : s ≠ r := fun hsr => hnp (hsr ▸ hsp)
      refine ⟨s, (isTop_attach hp route).2 ⟨hs, hsr⟩, ?_⟩
      exact ((hmono hsp).step ((mem_kids_attach hp route).2 (.inr ⟨rfl, rfl⟩))).trans (hmono hb)
    · exact ⟨r, (isTop_attach hp route).2 ⟨hr, hrn⟩, hmono hb⟩

end Attach

section Detach

/-- In a forest no child is there twice, so an edge taken out takes the child away for good. -/
theorem IsForest.mem_kids_detach (h : t.IsForest) {k : NodeId} :
    k ∈ (t.removeEdge p (.node n)).kids q ↔ k ∈ t.kids q ∧ ¬ (q = p ∧ k = n) := by
  rw [kids_removeEdge]
  split
  · next hq =>
    rw [(h.nodup_kids q).mem_erase_iff]
    simp [hq, and_comm]
  · next hq => simp [hq]

/-- A node taken from its one parent is a top. -/
theorem IsForest.isTop_detach (h : t.IsForest) (hk : n ∈ t.kids p) :
    (t.removeEdge p (.node n)).IsTop m ↔ t.IsTop m ∨ m = n := by
  simp only [IsTop, size_removeEdge, h.mem_kids_detach]
  constructor
  · rintro ⟨hlt, hm⟩
    by_cases hmn : m = n
    · exact .inr hmn
    · exact .inl ⟨hlt, fun q hq => hm q ⟨hq, fun h => hmn h.2⟩⟩
  · rintro (⟨hlt, hm⟩ | rfl)
    · exact ⟨hlt, fun q hq => hm q hq.1⟩
    · exact ⟨h.kid_lt hk, fun q hq => hq.2 ⟨h.parent_unique hq.1 hk, rfl⟩⟩

/-- A node taken from its parent keeps what is below it. -/
theorem IsForest.detach (h : t.IsForest) (hk : n ∈ t.kids p) :
    (t.removeEdge p (.node n)).IsForest where
  kid_lt hm := by
    rw [size_removeEdge]
    exact h.kid_lt (h.mem_kids_detach.1 hm).1
  nodup_kids q := by
    rw [kids_removeEdge]
    split
    · exact (h.nodup_kids q).erase n
    · exact h.nodup_kids q
  parent_unique hp hq := h.parent_unique (h.mem_kids_detach.1 hp).1 (h.mem_kids_detach.1 hq).1
  below_top {x} hx := by
    rw [size_removeEdge] at hx
    obtain ⟨r, hr, hb⟩ := h.below_top hx
    -- Down from the old top: the node cut off is a top itself, any other stays below the top of its
    -- parent.
    refine hb.induct (motive := fun x => ∃ s, (t.removeEdge p (.node n)).IsTop s ∧
      (t.removeEdge p (.node n)).Below s x) ⟨r, (h.isTop_detach hk).2 (.inl hr), .refl⟩ ?_
    rintro q y - hy ⟨s, hs, hsq⟩
    by_cases hcut : q = p ∧ y = n
    · exact ⟨y, (h.isTop_detach hk).2 (.inr hcut.2), .refl⟩
    · exact ⟨s, hs, hsq.step (h.mem_kids_detach.2 ⟨hy, hcut⟩)⟩

end Detach

end Multicast.RouteTree
