import Mathlib.Order.Bounds.Defs
import Multicast.Proofs.Search.Layers
import Multicast.Proofs.Tree.Proper

/-!
# `Multicast.Proofs.Tree.Walks`: what the walks of a row visit

A row of nodes that is made step by step holds any edges between its nodes: nodes may be
shared, rings may be closed, and what was detached stays in the row. `Assembled` says how
rows are made, and by each of its steps all edges stay in the row (`Assembled.kid_lt`).
That is all the walks need.

* `nearestFirst`: the walk from the root lists the nodes below it, each once and in the
  order of their distances, with the way out of an edge from a nearer node listed before;
* `mem_subtree` / `nodup_subtree` of `Multicast.Proofs.Tree.Proper`: the walk from any node
  lists what is below it, each node once;
* `depth_isGreatest`: where every edge leads one step farther from the root, the depth is
  the largest distance. The walk comes to a node after the one whose edge leads to it, and
  by then the distance of the node is noted (`Depths.Notes`).

An edge leads one step farther when its end has no other parent and no ring goes through it
(`distance_kid`).
-/

set_option autoImplicit false

namespace Multicast.RouteTree

/-- A row made from a root: nodes are added, edges to endpoints or to nodes of the row are added
behind the others of a node, and edges are taken out again. -/
inductive Assembled : RouteTree → Prop
  | single (c : Chip) : Assembled (single c)
  | addNode {t : RouteTree} (h : Assembled t) (c : Chip) : Assembled (t.addNode c)
  | addEdge {t : RouteTree} (h : Assembled t) {p : NodeId} (hp : p < t.size) {e : Edge}
      (hkid : ∀ n ∈ e.kid?, n < t.size) : Assembled (t.addEdge p e)
  | removeEdge {t : RouteTree} (h : Assembled t) {p : NodeId} (hp : p < t.size) (child : Child) :
      Assembled (t.removeEdge p child)

/-- The number of edges on a shortest chain from the root to a node below it. -/
noncomputable def distance (t : RouteTree) (n : NodeId) : Nat :=
  Search.distance t.childNodes t.root n

/-- A list of the nodes below the root, each with the way out it is reached by. -/
structure NearestFirst (t : RouteTree) (walk : List (Option Route × NodeId)) : Prop where
  mem_iff : ∀ n, n ∈ walk.map (·.2) ↔ t.Below t.root n
  nodup : (walk.map (·.2)).Nodup
  sorted : walk.Pairwise fun x y => t.distance x.2 ≤ t.distance y.2
  root_first : walk.head? = some (none, t.root)
  from_nearer : ∀ {before after x}, walk = before ++ x :: after → x.2 ≠ t.root →
    ∃ y ∈ before, ⟨x.1, .node x.2⟩ ∈ t.edges y.2 ∧ t.distance x.2 = t.distance y.2 + 1

/-- No edges from two nodes lead to the same node. -/
def OneParent (t : RouteTree) : Prop :=
  ∀ {p q n}, n ∈ t.kids p → n ∈ t.kids q → p = q

/-- No node below the root is below one of its own kids. -/
def NoRing (t : RouteTree) : Prop :=
  ∀ {n k}, t.Below t.root n → k ∈ t.kids n → ¬ t.Below k n

variable {t : RouteTree} {m n p k : NodeId}

/-! ### Rows made step by step -/

/-- To add a child is one step after another. -/
theorem Assembled.addChild (h : t.Assembled) (hp : p < t.size) (route : Option Route) (c : Chip) :
    (t.addChild p route c).Assembled := by
  rw [addChild_eq]
  have hlt : t.size < (t.addNode c).size := by simp
  refine (h.addNode c).addEdge (hp.trans hlt) fun n hn => ?_
  obtain rfl : t.size = n := Option.some.inj hn
  exact hlt

/-- The root is never taken out of the row. -/
theorem Assembled.root_lt (h : t.Assembled) : t.root < t.size := by
  induction h with
  | single c => exact Nat.one_pos
  | addNode _ c ih =>
      rw [size_addNode]
      exact Nat.lt_succ_of_lt ih
  | addEdge _ _ _ ih =>
      rw [size_addEdge]
      exact ih
  | removeEdge _ _ child ih =>
      rw [size_removeEdge]
      exact ih

/-- Every edge to a node stays in the row. -/
theorem Assembled.kid_lt (h : t.Assembled) : ∀ {p n}, n ∈ t.kids p → n < t.size := by
  induction h with
  | single c => simp
  | addNode _ c ih =>
      intro p n hn
      rw [kids_addNode] at hn
      rw [size_addNode]
      exact Nat.lt_succ_of_lt (ih hn)
  | @addEdge t _ q hq e hkid ih =>
      intro p n hn
      obtain ⟨e', he', hn⟩ := List.mem_filterMap.1 hn
      rw [size_addEdge]
      rw [edges_addEdge hq] at he'
      split at he'
      · rcases List.mem_append.1 he' with hold | hnew
        · exact ih (List.mem_filterMap.2 ⟨e', hold, hn⟩)
        · exact hkid n (List.mem_singleton.1 hnew ▸ hn)
      · exact ih (List.mem_filterMap.2 ⟨e', he', hn⟩)
  | @removeEdge t _ q _ child ih =>
      intro p n hn
      obtain ⟨e', he', hn⟩ := List.mem_filterMap.1 hn
      rw [size_removeEdge]
      rw [edges_removeEdge] at he'
      have hold : e' ∈ t.edges p := by
        split at he'
        · exact List.mem_of_mem_eraseP he'
        · exact he'
      exact ih (List.mem_filterMap.2 ⟨e', hold, hn⟩)

/-! ### The walk from the root -/

section Row

variable (hlt : ∀ n, t.Below t.root n → n < t.size)
include hlt

/-- An arrival is the root, or an edge leads to it from an arrival before it. -/
theorem arrivals_cases {before after : List (Search.Arrival NodeId (Option Route))}
    {a : Search.Arrival NodeId (Option Route)} (h : t.arrivals = before ++ a :: after) :
    a = ⟨t.root, none⟩ ∨ ∃ b ∈ before, ∃ route,
      a.via = some (b.node, route) ∧ (route, a.node) ∈ t.childNodes b.node := by
  have hfollows : a.Follows t.childNodes t.root before :=
    Search.follows_of_breadthFirst_eq (List.range t.size)
      (fun n hn => List.mem_range.2 (hlt n hn)) (by simp) h
  obtain ⟨node, via⟩ := a
  cases via with
  | none => exact .inl (congrArg (Search.Arrival.mk · none) hfollows)
  | some edge =>
      obtain ⟨source, route⟩ := edge
      obtain ⟨hsource, hedge⟩ := hfollows
      obtain ⟨b, hb, rfl⟩ := List.mem_map.1 hsource
      exact .inr ⟨b, hb, route, rfl, hedge⟩

/-- The walk from the root goes nearest first. -/
theorem nearestFirst : t.NearestFirst t.breadthFirst := by
  have hnodes : t.breadthFirst.map (·.2) = t.reached := by
    rw [breadthFirst, reached, List.map_map]
    rfl
  refine ⟨fun n => ?_, ?_, ?_, ?_, fun {before after x} hwalk hne => ?_⟩
  · rw [hnodes]
    exact mem_reached hlt
  · rw [hnodes]
    exact nodup_reached hlt
  · exact List.pairwise_map.2 (Search.sorted_breadthFirst t.childNodes (t.size + 1) t.root)
  · -- Nothing comes before the first arrival, so it is the root.
    have hroot : t.root ∈ t.reached := (mem_reached hlt).2 .refl
    rw [breadthFirst, List.head?_map]
    cases harrivals : t.arrivals with
    | nil => simp [reached, harrivals] at hroot
    | cons first rest =>
        have hsplit : t.arrivals = [] ++ first :: rest := harrivals
        obtain rfl | ⟨b, hb, -⟩ := arrivals_cases hlt hsplit
        · rfl
        · exact absurd hb List.not_mem_nil
  · obtain ⟨earlier, later, harrivals, rfl, hlater⟩ := List.map_eq_append_iff.1 hwalk
    obtain ⟨a, rest, rfl, rfl, -⟩ := List.map_eq_cons_iff.1 hlater
    obtain rfl | ⟨b, hb, route, hvia, hedge⟩ := arrivals_cases hlt harrivals
    · exact absurd rfl hne
    · have hmem : a ∈ t.arrivals := harrivals ▸ List.mem_append_right _ (List.mem_cons_self ..)
      have hroute : arrivalRoute a = route := by rw [arrivalRoute, hvia]
      refine ⟨_, List.mem_map_of_mem hb, ?_, Search.oneFarther_of_mem hmem _ _ hvia⟩
      rw [hroute]
      exact mem_childNodes.1 hedge

end Row

/-! ### The depth -/

/-- The end of an edge without another parent is one step farther, if it is not the root. -/
theorem distance_kid (hparent : t.OneParent) (hring : t.NoRing) (hp : t.Below t.root p)
    (hk : k ∈ t.kids p) : t.distance k = t.distance p + 1 := by
  have hne : k ≠ t.root := fun heq => hring hp hk (heq ▸ hp)
  have hbelow : Search.Reaches t.childNodes t.root k := hp.step hk
  obtain ⟨q, -, hq, hdistance⟩ := hbelow.exists_nearer hne
  obtain rfl := hparent (adjacent_iff.1 hq) hk
  exact hdistance

/-- What is noted after some kids have been met: the distance of each, and the largest of them. -/
structure Depths.Notes (t : RouteTree) (met : List NodeId) (d : Depths) : Prop where
  noted : ∀ n, d.noted[n]? = if n ∈ met then some (t.distance n) else none
  le : ∀ n ∈ met, t.distance n ≤ d.deepest
  attained : d.deepest = 0 ∨ ∃ n ∈ met, t.distance n = d.deepest

variable {d : Depths} {met : List NodeId}

/-- Noting the distance of one more kid. -/
theorem Depths.Notes.note (h : d.Notes t met) (k : NodeId) :
    (Depths.mk (d.noted.insert k (t.distance k)) (max d.deepest (t.distance k))).Notes t
      (met ++ [k]) := by
  refine ⟨fun n => ?_, ?_, ?_⟩
  · rw [Std.ExtTreeMap.getElem?_insert, h.noted]
    simp only [Std.LawfulEqOrd.compare_eq_iff_eq, List.mem_append, List.mem_singleton]
    by_cases hn : k = n
    · simp [hn]
    · simp [hn, Ne.symm hn]
  · intro n hn
    rcases List.mem_append.1 hn with hn | hn
    · exact (h.le n hn).trans (Nat.le_max_left ..)
    · exact List.mem_singleton.1 hn ▸ Nat.le_max_right ..
  · show max d.deepest (t.distance k) = 0 ∨ _
    rcases Nat.le_total d.deepest (t.distance k) with hle | hle
    · exact .inr ⟨k, by simp, (Nat.max_eq_right hle).symm⟩
    · rw [Nat.max_eq_left hle]
      exact h.attained.imp_right fun ⟨n, hn, heq⟩ => ⟨n, List.mem_append_left _ hn, heq⟩

/-- Noting the depths of all kids of a node whose own distance is noted. -/
theorem Depths.Notes.noteDepths (h : d.Notes t met) (hp : d.noted.getD p 0 = t.distance p)
    (hfar : ∀ k ∈ t.kids p, t.distance k = t.distance p + 1) :
    (t.noteDepths d p).Notes t (met ++ t.kids p) := by
  unfold RouteTree.noteDepths
  rw [kids_eq] at hfar ⊢
  generalize t.childNodes p = edges at hfar ⊢
  induction edges generalizing d met with
  | nil => simpa using h
  | cons x rest ih =>
      obtain ⟨hx, hrest⟩ := List.forall_mem_cons.1 hfar
      have hx : t.distance x.2 = t.distance p + 1 := hx
      rw [List.foldl_cons, List.map_cons, ← List.singleton_append, ← List.append_assoc]
      simp only [hp, ← hx]
      refine ih (h.note x.2) ?_ hrest
      -- No kid is the node itself, so that what is noted of the node stays.
      have hne : x.2 ≠ p := fun heq => by
        rw [heq] at hx
        omega
      rw [← hp, Std.ExtTreeMap.getD_insert]
      simp [hne]

section Row

variable (hlt : ∀ n, t.Below t.root n → n < t.size)
  (hfar : ∀ {p k}, t.Below t.root p → k ∈ t.kids p → t.distance k = t.distance p + 1)
include hlt hfar

/-- While the walk goes on, the distances of all kids of the nodes walked are noted. -/
theorem notes_of_prefix {walked : List NodeId} (h : walked <+: t.reached) :
    (walked.foldl t.noteDepths ⟨∅, 0⟩).Notes t (walked.flatMap t.kids) := by
  induction walked using List.reverseRecOn with
  | nil => exact ⟨fun n => by simp, by simp, .inl rfl⟩
  | append_singleton walked p ih =>
      have hnotes := ih ((List.prefix_append ..).trans h)
      obtain ⟨rest, hrest⟩ := h
      have hp : t.Below t.root p := (mem_reached hlt).1 (by simp [← hrest])
      rw [List.foldl_append, List.foldl_cons, List.foldl_nil, List.flatMap_append,
        List.flatMap_singleton]
      refine hnotes.noteDepths ?_ fun k => hfar hp
      rw [Std.ExtTreeMap.getD_eq_getD_getElem?, hnotes.noted]
      split
      · rfl
      · next hnot =>
        -- Its distance would have been noted with the edge it was found over, so it is the root.
        obtain ⟨earlier, later, harrivals, rfl, hlater⟩ :=
          List.map_eq_append_iff.1 (hrest.symm.trans (List.append_assoc ..))
        obtain ⟨a, more, rfl, rfl, -⟩ := List.map_eq_cons_iff.1 hlater
        obtain rfl | ⟨b, hb, route, -, hedge⟩ := arrivals_cases hlt harrivals
        · exact (Search.distance_start ..).symm
        · refine absurd (List.mem_flatMap.2 ⟨b.node, List.mem_map_of_mem hb, ?_⟩) hnot
          exact mem_kids.2 ⟨route, hedge⟩

/-- Where edges lead one step farther, the depth is the largest distance from the root. -/
theorem depth_isGreatest : IsGreatest {k | ∃ n, t.Below t.root n ∧ t.distance n = k} t.depth := by
  have hnotes : (t.reached.foldl t.noteDepths ⟨∅, 0⟩).Notes t (t.reached.flatMap t.kids) :=
    notes_of_prefix hlt hfar List.prefix_rfl
  constructor
  · rcases hnotes.attained with hzero | ⟨n, hn, heq⟩
    · exact ⟨t.root, .refl, (Search.distance_start ..).trans hzero.symm⟩
    · obtain ⟨p, hp, hk⟩ := List.mem_flatMap.1 hn
      exact ⟨n, ((mem_reached hlt).1 hp).step hk, heq⟩
  · rintro _ ⟨n, hn, rfl⟩
    rcases hn.cases_tail with rfl | ⟨p, hp, hk⟩
    · exact (Search.distance_start ..).trans_le (Nat.zero_le _)
    · exact hnotes.le n (List.mem_flatMap.2 ⟨p, (mem_reached hlt).2 hp, hk⟩)

end Row

/-- From the root of a row made step by step, whatever its edges are, the walk lists what is below
it nearest first, and from any node of the row the other walk lists what is below that, each node
once. If no node has two parents and there is no ring below the root, the depth is the largest
distance from the root; several edges from one node to another do not matter then. -/
theorem walks_exact (t : RouteTree) (h : t.Assembled) :
    t.NearestFirst t.breadthFirst ∧
    (∀ n < t.size, (∀ m, m ∈ t.subtree n ↔ t.Below n m) ∧ (t.subtree n).Nodup) ∧
    (t.OneParent → t.NoRing →
      IsGreatest {k | ∃ n, t.Below t.root n ∧ t.distance n = k} t.depth) := by
  have hlt : ∀ n, t.Below t.root n → n < t.size := fun n hn => hn.lt_size h.kid_lt h.root_lt
  refine ⟨nearestFirst hlt, fun n hn => ?_, fun hparent hring => ?_⟩
  · have hbelow : ∀ m, t.Below n m → m < t.size := fun m hm => hm.lt_size h.kid_lt hn
    exact ⟨fun m => mem_subtree hbelow, nodup_subtree hbelow⟩
  · exact depth_isGreatest hlt fun hp hk => distance_kid hparent hring hp hk

/-- A root with two nodes that share a third one, from which an edge leads back to the root. A node
that once hung below is detached, with an edge to the third one. -/
def wovenRow : RouteTree :=
  let chain := ((single ⟨0, 0⟩).addChild 0 (some (.link .east)) ⟨1, 0⟩).addChild 1
    (some (.link .north)) ⟨1, 1⟩
  let shared := (chain.addChild 0 (some (.link .north)) ⟨0, 1⟩).addEdge 3
    ⟨some (.link .east), .node 2⟩
  let ring := shared.addEdge 2 ⟨some (.link .southWest), .node 0⟩
  ((ring.addChild 2 (some (.link .east)) ⟨2, 1⟩).addEdge 4 ⟨some (.link .west), .node 2⟩).removeEdge
    2 (.node 4)

/-- A root with a chain of two nodes below it and a single one, from which a ring of two nodes was
detached. -/
def tornRow : RouteTree :=
  let chain := ((single ⟨0, 0⟩).addChild 0 (some (.link .east)) ⟨1, 0⟩).addChild 1
    (some (.link .east)) ⟨2, 0⟩
  let forked := (chain.addChild 0 (some (.link .north)) ⟨0, 1⟩).addChild 3 (some (.link .north))
    ⟨0, 2⟩
  ((forked.addChild 4 (some (.link .north)) ⟨0, 3⟩).addEdge 5
    ⟨some (.link .south), .node 4⟩).removeEdge 3 (.node 4)

/-- The woven row is made step by step, the ring and the detached node with it. -/
theorem assembled_wovenRow : wovenRow.Assembled := by
  have hchain := ((Assembled.single ⟨0, 0⟩).addChild (p := 0) (by decide) (some (.link .east))
    ⟨1, 0⟩).addChild (p := 1) (by decide) (some (.link .north)) ⟨1, 1⟩
  have hshared := (hchain.addChild (p := 0) (by decide) (some (.link .north)) ⟨0, 1⟩).addEdge
    (p := 3) (by decide) (e := ⟨some (.link .east), .node 2⟩) (by decide)
  have hring := hshared.addEdge (p := 2) (by decide) (e := ⟨some (.link .southWest), .node 0⟩)
    (by decide)
  exact ((hring.addChild (p := 2) (by decide) (some (.link .east)) ⟨2, 1⟩).addEdge (p := 4)
    (by decide) (e := ⟨some (.link .west), .node 2⟩) (by decide)).removeEdge (p := 2) (by decide)
    (.node 4)

/-- So is the torn one, whose last step detaches the ring. -/
theorem assembled_tornRow : tornRow.Assembled := by
  have hchain := ((Assembled.single ⟨0, 0⟩).addChild (p := 0) (by decide) (some (.link .east))
    ⟨1, 0⟩).addChild (p := 1) (by decide) (some (.link .east)) ⟨2, 0⟩
  have hforked := (hchain.addChild (p := 0) (by decide) (some (.link .north)) ⟨0, 1⟩).addChild
    (p := 3) (by decide) (some (.link .north)) ⟨0, 2⟩
  exact ((hforked.addChild (p := 4) (by decide) (some (.link .north)) ⟨0, 3⟩).addEdge (p := 5)
    (by decide) (e := ⟨some (.link .south), .node 4⟩) (by decide)).removeEdge (p := 3) (by decide)
    (.node 4)

/-- No node of the torn row hangs below two others. -/
theorem tornRow_oneParent : tornRow.OneParent := by
  have hall : ∀ p < tornRow.size, ∀ q < tornRow.size, ∀ n ∈ tornRow.kids p, n ∈ tornRow.kids q →
      p = q := by decide +kernel
  intro p q n hp hq
  exact hall p (lt_size_of_mem_kids hp) q (lt_size_of_mem_kids hq) n hp hq

/-- Below the root every edge leads to a later node, and the detached ones are not reached. -/
theorem tornRow_noRing : tornRow.NoRing := by
  have hall : ∀ p < 4, ∀ k ∈ tornRow.kids p, p < k ∧ k < 4 := by decide +kernel
  intro n k hn hk hring
  have hlt : n < 4 :=
    hn.induct (motive := (· < 4)) (by decide) fun p k _ hk hp => (hall p hp k hk).2
  obtain ⟨hlater, hlt⟩ := hall n hlt k hk
  have hback : k ≤ n ∧ n < 4 := hring.induct (motive := fun m => k ≤ m ∧ m < 4) ⟨Nat.le_refl k, hlt⟩
    fun p m _ hm hp => ⟨hp.1.trans (hall p hp.2 m hm).1.le, (hall p hp.2 m hm).2⟩
  exact Nat.not_le_of_lt hlater hback.1

/-- Over shared nodes and rings every node is met once. Detached nodes are met from below them only
and do not count for the depth. -/
theorem wovenRow_walks :
    (wovenRow.Assembled ∧
      wovenRow.NearestFirst [(none, 0), (some (.link .east), 1), (some (.link .north), 3),
        (some (.link .north), 2)] ∧
      wovenRow.subtree 4 = [4, 2, 0, 3, 1] ∧ ∀ n, n ∈ [4, 2, 0, 3, 1] ↔ wovenRow.Below 4 n) ∧
    tornRow.Assembled ∧ tornRow.OneParent ∧ tornRow.NoRing ∧
      IsGreatest {k | ∃ n, tornRow.Below tornRow.root n ∧ tornRow.distance n = k} 2 := by
  obtain ⟨hnearest, hbelow, -⟩ := walks_exact wovenRow assembled_wovenRow
  obtain ⟨-, -, hdepth⟩ := walks_exact tornRow assembled_tornRow
  have hwalk : wovenRow.breadthFirst = [(none, 0), (some (.link .east), 1),
      (some (.link .north), 3), (some (.link .north), 2)] := by decide +kernel
  have hsubtree : wovenRow.subtree 4 = [4, 2, 0, 3, 1] := by decide +kernel
  have htwo : tornRow.depth = 2 := by decide +kernel
  exact ⟨⟨assembled_wovenRow, hwalk ▸ hnearest, hsubtree, hsubtree ▸ (hbelow 4 (by decide)).1⟩,
    assembled_tornRow, tornRow_oneParent, tornRow_noRing,
    htwo ▸ hdepth tornRow_oneParent tornRow_noRing⟩

end Multicast.RouteTree
