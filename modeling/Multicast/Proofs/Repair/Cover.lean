import Mathlib.Logic.Function.Basic
import Multicast.Proofs.Tree.Proper
import Multicast.Repair.Cut

/-!
# `Multicast.Proofs.Repair.Cover`: the part of a tree a copy has found

A copy goes down a tree edge by edge. `Cover` describes how far it got, in terms of
the old tree alone: the nodes found so far, the jobs not yet finished (`active`) and
the edges of each node that are still to be copied (`left`). What has been found is
closed under the edges copied, and no edge still to be copied leads to a node found;
this is where properness of the tree is used.

`Cover.terminal` and `Cover.node` take one edge off, and with no job left all nodes
below the root have been found (`Cover.mem_found_iff`).
-/

set_option autoImplicit false

namespace Multicast.Cut

/-- The part of a tree found so far. `active` are the jobs not yet finished, `left` the edges not
yet copied. -/
structure Cover (t : RouteTree) (active : List Job) (left : NodeId → List Edge)
    (found : List NodeId) : Prop where
  below : ∀ n ∈ found, t.Below t.root n
  nodup : found.Nodup
  root_mem : t.root ∈ found
  origin : ∀ n ∈ found, n = t.root ∨ ∃ p ∈ found, n ∈ t.kids p
  active_mem : ∀ j ∈ active, j.node ∈ found
  active_nodup : (active.map (·.node)).Nodup
  idle : ∀ n ∈ found, (∀ j ∈ active, j.node ≠ n) → left n = []
  unfound : ∀ n, n ∉ found → left n = t.edges n
  suffix : ∀ n, left n <:+ t.edges n
  handled : ∀ n ∈ found, ∀ k ∈ t.kids n, k ∈ found ∨ k ∈ (left n).filterMap Edge.kid?
  fresh : ∀ n ∈ found, ∀ k ∈ (left n).filterMap Edge.kid?, k ∉ found

namespace Cover

variable {t : RouteTree} {active : List Job} {left : NodeId → List Edge} {found : List NodeId}
  {j : Job} {e : Edge} {post : List Edge} {k : NodeId}

/-- What is still to be found below a node is among its children. -/
theorem kids_left_subset (h : Cover t active left found) {n : NodeId}
    (hk : k ∈ (left n).filterMap Edge.kid?) : k ∈ t.kids n :=
  ((h.suffix n).filterMap Edge.kid?).subset hk

/-- The order of the jobs does not matter. -/
theorem perm {active' : List Job} (h : Cover t active left found) (hp : active'.Perm active) :
    Cover t active' left found :=
  { h with
    active_mem := fun j hj => h.active_mem j (hp.mem_iff.1 hj)
    active_nodup := (hp.map _).nodup_iff.2 h.active_nodup
    idle := fun n hn hi => h.idle n hn fun j hj => hi j (hp.mem_iff.2 hj) }

/-- A job without edges left is done. -/
theorem finish (h : Cover t (j :: active) left found) (hleft : left j.node = []) :
    Cover t active left found :=
  { h with
    active_mem := fun i hi => h.active_mem i (List.mem_cons_of_mem _ hi)
    active_nodup := (List.nodup_cons.1 h.active_nodup).2
    idle := fun n hn hi => by
      by_cases hjn : j.node = n
      · exact hjn ▸ hleft
      · refine h.idle n hn fun i hmem => ?_
        rcases List.mem_cons.1 hmem with rfl | hmem
        · exact hjn
        · exact hi i hmem }

/-- To take the first edge off one node leaves every node a part of what it had. -/
theorem suffix_update (hleft : left j.node = e :: post) (n : NodeId) :
    Function.update left j.node post n <:+ left n := by
  by_cases hn : n = j.node
  · subst hn
    rw [Function.update_self, hleft]
    exact List.suffix_cons e post
  · exact (Function.update_of_ne hn post left).symm ▸ List.suffix_refl (left n)

section Step

variable (h : Cover t active left found) (hj : j ∈ active) (hleft : left j.node = e :: post)
include h hj hleft

/-- An edge to an endpoint finds nothing. The node of the job has one edge less before it, and that
one led to no node. -/
theorem terminal (he : e.kid? = none) :
    Cover t active (Function.update left j.node post) found := by
  have hne : ∀ {n}, n ≠ j.node → Function.update left j.node post n = left n := fun hn =>
    Function.update_of_ne hn _ _
  -- The other nodes keep their edges; at the node of the job one edge is gone that led to no node.
  refine { h with
    idle := fun n hn hi => ?_
    unfound := fun n hn => ?_
    suffix := fun n => (suffix_update hleft n).trans (h.suffix n)
    handled := fun n hn k hk => ?_
    fresh := fun n hn k hk => h.fresh n hn k
      (((suffix_update hleft n).filterMap _).subset hk) }
  · rw [hne fun heq => hi j hj heq.symm]
    exact h.idle n hn hi
  · have hnj : n ≠ j.node := fun heq => hn (by rw [heq]; exact h.active_mem j hj)
    rw [hne hnj]
    exact h.unfound n hn
  · by_cases hnj : n = j.node
    · subst hnj
      have := h.handled j.node hn k hk
      rwa [hleft, List.filterMap_cons_none he, ← Function.update_self j.node post left] at this
    · rw [hne hnj]
      exact h.handled n hn k hk

/-- The node an edge still to be copied leads to has not been found. -/
theorem not_mem_found (he : e.kid? = some k) : k ∉ found :=
  h.fresh j.node (h.active_mem j hj) k (by simp [hleft, he])

/-- The node an edge still to be copied leads to is below the root, since the node of the job is. -/
theorem kid_below (he : e.kid? = some k) : t.Below t.root k :=
  (h.below _ (h.active_mem j hj)).step (h.kids_left_subset (by simp [hleft, he]))

/-- With the node just found, all nodes found are still below the root. -/
theorem below_cons (he : e.kid? = some k) {n : NodeId} (hn : n ∈ k :: found) :
    t.Below t.root n := by
  rcases List.mem_cons.1 hn with rfl | hn
  · exact h.kid_below hj hleft he
  · exact h.below n hn

/-- With the node just found, a child of a node found has been found or is still to be. -/
theorem handled_cons (he : e.kid? = some k) {n k' : NodeId} (hn : n ∈ k :: found)
    (hk' : k' ∈ t.kids n) :
    k' ∈ k :: found ∨ k' ∈ (Function.update left j.node post n).filterMap Edge.kid? := by
  have hk := h.not_mem_found hj hleft he
  rcases List.mem_cons.1 hn with rfl | hn
  · -- The node just found has all its edges still before it.
    have hne : n ≠ j.node := fun heq => hk (heq ▸ h.active_mem j hj)
    rw [Function.update_of_ne hne, h.unfound n hk]
    exact .inr hk'
  · by_cases hnj : n = j.node
    · subst hnj
      rw [Function.update_self]
      -- A kid of the node of the job was found before, is to be found, or is found now.
      rcases h.handled _ hn k' hk' with hf | hl
      · exact .inl (List.mem_cons_of_mem _ hf)
      · rw [hleft, List.filterMap_cons_some he, List.mem_cons] at hl
        refine hl.imp_left fun heq => ?_
        rw [heq]
        exact List.mem_cons_self ..
    · rw [Function.update_of_ne hnj]
      exact (h.handled n hn k' hk').imp_left (List.mem_cons_of_mem _)

/-- With the node just found, no edge still to be copied leads to a node found. A second edge there
would give the node two parents, or its parent two edges to it, and no proper tree has either. -/
theorem fresh_cons (ht : t.IsProper) (he : e.kid? = some k) {n k' : NodeId} (hn : n ∈ k :: found)
    (hk' : k' ∈ (Function.update left j.node post n).filterMap Edge.kid?) : k' ∉ k :: found := by
  have hbj := h.below _ (h.active_mem j hj)
  have hbn := h.below_cons hj hleft he hn
  have hold : k' ∈ (left n).filterMap Edge.kid? :=
    ((suffix_update hleft n).filterMap _).subset hk'
  have hkids := h.kids_left_subset hold
  intro hmem
  rcases List.mem_cons.1 hmem with rfl | hfound
  · -- The same node again: its parent would have two edges to it.
    have hkj : k' ∈ t.kids j.node := h.kids_left_subset (by simp [hleft, he])
    obtain rfl := ht.parent_unique hbn hbj hkids hkj
    rw [Function.update_self] at hk'
    have hnd := (ht.nodup_kids hbn).sublist ((h.suffix j.node).filterMap Edge.kid?).sublist
    rw [hleft, List.filterMap_cons_some he] at hnd
    exact (List.nodup_cons.1 hnd).1 hk'
  · rcases List.mem_cons.1 hn with rfl | hn
    · -- A kid of the new node was found before, but not through its own parent.
      rcases h.origin k' hfound with rfl | ⟨p, hp, hkp⟩
      · exact ht.root_not_kid hbn hkids
      · refine h.not_mem_found hj hleft he ?_
        exact ht.parent_unique (h.below p hp) hbn hkp hkids ▸ hp
    · exact h.fresh n hn k' hold hfound

/-- An edge to a node finds that node, and nothing else that was to be found. The job for what hangs
below it is at hand from now on. -/
theorem node (ht : t.IsProper) (he : e.kid? = some k) {job : Job} (hjob : job.node = k) :
    Cover t (job :: active) (Function.update left j.node post) (k :: found) := by
  have hjf := h.active_mem j hj
  have hk := h.not_mem_found hj hleft he
  have hkj : k ∈ t.kids j.node := h.kids_left_subset (by simp [hleft, he])
  have hne : ∀ {n}, n ≠ j.node → Function.update left j.node post n = left n := fun hn =>
    Function.update_of_ne hn _ _
  refine ⟨fun n hn => h.below_cons hj hleft he hn, ?_, ?_, ?_, ?_, ?_, ?_, ?_, ?_,
    fun n hn k' hk' => h.handled_cons hj hleft he hn hk',
    fun n hn k' hk' => h.fresh_cons hj hleft ht he hn hk'⟩
  · exact List.nodup_cons.2 ⟨hk, h.nodup⟩
  · exact List.mem_cons_of_mem _ h.root_mem
  · intro n hn
    rcases List.mem_cons.1 hn with rfl | hn
    · exact .inr ⟨_, List.mem_cons_of_mem _ hjf, hkj⟩
    · exact (h.origin n hn).imp_right fun ⟨p, hp, hnp⟩ => ⟨p, List.mem_cons_of_mem _ hp, hnp⟩
  · intro i hi
    rcases List.mem_cons.1 hi with rfl | hi
    · exact hjob ▸ List.mem_cons_self ..
    · exact List.mem_cons_of_mem _ (h.active_mem i hi)
  · refine List.nodup_cons.2 ⟨fun hm => ?_, h.active_nodup⟩
    obtain ⟨i, hi, hij⟩ := List.mem_map.1 hm
    have hik : i.node = k := Eq.trans hij hjob
    exact hk (hik ▸ h.active_mem i hi)
  · intro n hn hi
    rcases List.mem_cons.1 hn with rfl | hn
    · exact absurd hjob (hi job (List.mem_cons_self ..))
    · have hi : ∀ i ∈ active, i.node ≠ n := fun i hm => hi i (List.mem_cons_of_mem _ hm)
      rw [hne fun heq => hi j hj heq.symm]
      exact h.idle n hn hi
  · intro n hn
    have hn : n ∉ found := fun hm => hn (List.mem_cons_of_mem _ hm)
    have hnj : n ≠ j.node := fun heq => hn (by rw [heq]; exact hjf)
    rw [hne hnj]
    exact h.unfound n hn
  · exact fun n => (suffix_update hleft n).trans (h.suffix n)

end Step

/-- With all jobs done, what has been found is what can be reached. -/
theorem mem_found_iff (h : Cover t [] left found) {n : NodeId} :
    n ∈ found ↔ t.Below t.root n := by
  -- What has been found is closed under edges once no edge is left.
  refine ⟨h.below n, fun hb => hb.induct (motive := (· ∈ found)) h.root_mem ?_⟩
  intro p k _ hk hp
  refine (h.handled p hp k hk).resolve_right ?_
  simp [h.idle p hp (by simp)]

end Cover

/-- The root has been found, and nothing has been copied. -/
theorem Cover.initial {t : RouteTree} (ht : t.IsProper) {job : Job} (hjob : job.node = t.root) :
    Cover t [job] t.edges [t.root] where
  below n hn := List.mem_singleton.1 hn ▸ .refl
  nodup := List.nodup_singleton _
  root_mem := List.mem_singleton_self _
  origin n hn := .inl (List.mem_singleton.1 hn)
  active_mem j hj := by
    rw [List.mem_singleton.1 hj, hjob]
    exact List.mem_singleton_self _
  active_nodup := List.nodup_singleton _
  idle n hn hi := absurd (hjob.trans (List.mem_singleton.1 hn).symm) (hi job (by simp))
  unfound _ _ := rfl
  suffix _ := List.suffix_refl _
  handled _ _ _ hk := .inr hk
  fresh n hn k hk hmem := by
    rw [List.mem_singleton.1 hn, List.mem_singleton.1 hmem] at hk
    exact ht.root_not_kid .refl hk

end Multicast.Cut
