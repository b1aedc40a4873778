import Multicast.Proofs.Repair.Cover
import Multicast.Proofs.Repair.Pieces
import Multicast.Proofs.Tree.Unnumbered

/-!
# `Multicast.Proofs.Repair.Copy`: what a copy under way holds

`Copies` ties a copy to the part of the old tree found so far (`Cover`): it is in
pieces (`Pieces`), its tops are the root and the chips cut off, its chips are the
working ones found, and what hangs off a chip is what hung off it before. Every node
found is in the index or among the dead. Of a tree that works nothing is left out, and
all edges come over in their order (`Whole`). There is one lemma for each thing that
may happen to an edge: `Copies.terminal`, `Copies.skip` and `Copies.copyNode`.
-/

set_option autoImplicit false

namespace Multicast.Cut

/-- An edge lands on a chip when its way out is a working link to it. -/
theorem landsOn_iff {f : Fabric} {source target : Chip} {route : Option Route} :
    landsOn f source route target = true ↔
      ∃ d, route = some (.link d) ∧ f.follow? source d = some target := by
  unfold landsOn
  split
  · simp
  · next hno =>
    simp only [Bool.false_eq_true, false_iff]
    rintro ⟨d, rfl, -⟩
    exact hno d rfl

section CopyNode

variable (f : Fabric) (job : Job) (s : State) (route : Option Route) (node : NodeId) (chip : Chip)

/-- The state after a node whose edge lands on its chip: the new node hangs below the parent. -/
theorem copyNode_linked (hl : landsOn f job.parentChip route chip = true) :
    copyNode f job s route node chip =
      { s with
        tree := (s.tree.addNode chip).addEdge job.parent ⟨route, .node s.tree.size⟩
        index := s.index.insert chip s.tree.size
        jobs := ⟨node, chip, s.tree.size, chip⟩ :: s.jobs } := by
  rw [copyNode, if_pos hl, RouteTree.newest_addNode]

/-- The state after a node whose edge does not land: the new node is a top, and the pair of chips is
among the broken. -/
theorem copyNode_unlinked (hl : landsOn f job.parentChip route chip = false) :
    copyNode f job s route node chip =
      { s with
        tree := s.tree.addNode chip
        index := s.index.insert chip s.tree.size
        broken := (job.parentChip, chip) :: s.broken
        jobs := ⟨node, chip, s.tree.size, chip⟩ :: s.jobs } := by
  rw [copyNode, if_neg (by simp [hl]), RouteTree.newest_addNode]

/-- Either way the chip is in the index with the new node. -/
theorem copyNode_index :
    (copyNode f job s route node chip).index = s.index.insert chip s.tree.size := by
  unfold copyNode
  split <;> simp

/-- Either way there is a job for what hangs below it. -/
theorem copyNode_jobs :
    (copyNode f job s route node chip).jobs = ⟨node, chip, s.tree.size, chip⟩ :: s.jobs := by
  unfold copyNode
  split <;> simp

/-- Either way no chip is left out. -/
theorem copyNode_dead : (copyNode f job s route node chip).dead = s.dead := by
  unfold copyNode
  split <;> rfl

/-- Either way the root stays. -/
theorem copyNode_root : (copyNode f job s route node chip).tree.root = s.tree.root := by
  unfold copyNode
  split <;> rfl

/-- Either way the chips that head a broken edge still do. -/
theorem mem_broken_copyNode {b : Chip} (hb : b ∈ s.broken.map (·.1)) :
    b ∈ (copyNode f job s route node chip).broken.map (·.1) := by
  unfold copyNode
  split
  · exact hb
  · exact List.mem_cons_of_mem _ hb

/-- Either way the new node is on the chip, and the nodes before it stay where they are. -/
theorem copyNode_chip? (n : NodeId) : (copyNode f job s route node chip).tree.chip? n =
    if n = s.tree.size then some chip else s.tree.chip? n := by
  unfold copyNode
  split <;> simp

/-- Either way no endpoints are hung up or taken away. -/
theorem copyNode_endings (hp : job.parent < s.tree.size) (n : NodeId) :
    (copyNode f job s route node chip).tree.endings n = s.tree.endings n := by
  have hp : job.parent < (s.tree.addNode chip).size := by
    rw [RouteTree.size_addNode]
    exact Nat.lt_succ_of_lt hp
  unfold copyNode
  split
  · show RouteTree.endings (RouteTree.addEdge ..) n = _
    rw [RouteTree.endings_addEdge_node hp, RouteTree.endings_addNode]
  · exact RouteTree.endings_addNode ..

/-- The nodes that forward nowhere after a node is copied. -/
theorem of_isLeaf_copyNode (hp : job.parent < s.tree.size) {m : NodeId}
    (hm : (copyNode f job s route node chip).tree.isLeaf m = true) :
    s.tree.isLeaf m = true ∧ (m = job.parent → landsOn f job.parentChip route chip = false) := by
  have hlt : job.parent < (s.tree.addNode chip).size := by
    rw [RouteTree.size_addNode]
    exact Nat.lt_succ_of_lt hp
  obtain ⟨hkids, hends⟩ := RouteTree.isLeaf_iff.1 hm
  rw [copyNode_endings f job s route node chip hp] at hends
  cases hl : landsOn f job.parentChip route chip with
  | true =>
      rw [copyNode_linked f job s route node chip hl] at hkids
      simp only [RouteTree.kids_addEdge_node hlt, RouteTree.kids_addNode] at hkids
      by_cases hmp : m = job.parent
      · rw [if_pos hmp] at hkids
        simp at hkids
      · rw [if_neg hmp] at hkids
        exact ⟨RouteTree.isLeaf_iff.2 ⟨hkids, hends⟩, fun h => absurd h hmp⟩
  | false =>
      rw [copyNode_unlinked f job s route node chip hl] at hkids
      simp only [RouteTree.kids_addNode] at hkids
      exact ⟨RouteTree.isLeaf_iff.2 ⟨hkids, hends⟩, fun _ => rfl⟩

end CopyNode

/-- Nothing is left out of a copy: what it has of the edges of a node and what is still to be copied
of them are the edges of the node. -/
structure Whole (t : RouteTree) (s : State) (left : NodeId → List Edge) (found : List NodeId) :
    Prop where
  broken : s.broken = []
  dead : s.dead = []
  exits : ∀ {n c m}, n ∈ found → t.chip? n = some c → s.index[c]? = some m →
    s.tree.exits m ++ (left n).map t.exit = t.exits n

/-- What holds of a copy under way: its pieces are sound and headed by the root and the chips cut
off, its chips are the working ones found, and what hangs off a chip, together with what is still
to be copied, is what hung off it before. -/
structure Copies (f : Fabric) (t : RouteTree) (s : State) (active : List Job)
    (left : NodeId → List Edge) (found : List NodeId) : Prop where
  cover : Cover t active left found
  pieces : Pieces f s.tree s.index
  root : s.tree.root = 0
  root_chip : s.tree.chip? 0 = t.chip? t.root
  top : ∀ {n}, s.tree.IsTop n ↔ n = 0 ∨ ∃ b ∈ s.broken, s.index[b.2]? = some n
  broken_nodup : (s.broken.map (·.2)).Nodup
  broken_copied : ∀ b ∈ s.broken, ∃ n, n ≠ 0 ∧ s.index[b.2]? = some n
  copied : ∀ {c}, (∃ m, s.index[c]? = some m) ↔
    f.isChip c = true ∧ ∃ n ∈ found, t.chip? n = some c
  job : ∀ j ∈ active, t.chip? j.node = some j.chip ∧ s.tree.chip? j.parent = some j.parentChip ∧
    (f.isChip j.chip = true → j.parentChip = j.chip)
  endings : ∀ {n c m}, n ∈ found → t.chip? n = some c → s.index[c]? = some m →
    s.tree.endings m ++ (left n).filterMap Edge.ending? = t.endings n
  endings_dead : ∀ {n c}, n ∈ found → t.chip? n = some c → f.isChip c = false →
    (left n).filterMap Edge.ending? = t.endings n
  excused : t.NoDeadEnd → ∀ {m c}, s.tree.isLeaf m = true → s.tree.chip? m = some c →
    m = 0 ∨ c ∈ s.broken.map (·.1) ∨ ∃ j ∈ active, j.parent = m ∧ left j.node ≠ []
  counted : s.index.size + s.dead.length = found.length
  whole : t.WorksOn f → Whole t s left found

namespace Copies

variable {f : Fabric} {t : RouteTree} {s : State} {active : List Job}
  {left : NodeId → List Edge} {found : List NodeId} {j : Job} {e : Edge} {post : List Edge}
  {k : NodeId} {c : Chip}

/-- The jobs of the next level do not matter. -/
theorem with_jobs (h : Copies f t s active left found) (jobs : List Job) :
    Copies f t { s with jobs } active left found :=
  ⟨h.cover, h.pieces, h.root, h.root_chip, h.top, h.broken_nodup, h.broken_copied, h.copied, h.job,
    h.endings, h.endings_dead, h.excused, h.counted, fun hw =>
      ⟨(h.whole hw).broken, (h.whole hw).dead, (h.whole hw).exits⟩⟩

/-- The order of the jobs does not matter. -/
theorem perm {active' : List Job} (h : Copies f t s active left found)
    (hp : active'.Perm active) : Copies f t s active' left found :=
  { h with
    cover := h.cover.perm hp
    job := fun j hj => h.job j (hp.mem_iff.1 hj)
    excused := fun ht _ _ hm hc => (h.excused ht hm hc).imp_right fun h => h.imp_right
      fun ⟨j, hj, hx⟩ => ⟨j, hp.mem_iff.2 hj, hx⟩ }

/-- A job without edges left is done. -/
theorem finish (h : Copies f t s (j :: active) left found) (hleft : left j.node = []) :
    Copies f t s active left found :=
  { h with
    cover := h.cover.finish hleft
    job := fun i hi => h.job i (List.mem_cons_of_mem _ hi)
    excused := fun ht _ _ hm hc => (h.excused ht hm hc).imp_right fun h => h.imp_right
      fun ⟨i, hi, him, hil⟩ => by
        rcases List.mem_cons.1 hi with rfl | hi
        · exact absurd hleft hil
        · exact ⟨i, hi, him, hil⟩ }

/-- A leaf that waited for a job still does, unless the job is the one at hand. -/
theorem waiting (h : Copies f t s active left found) (hj : j ∈ active) (post : List Edge)
    {m : NodeId} (hm : ∃ i ∈ active, i.parent = m ∧ left i.node ≠ []) :
    m = j.parent ∨
      ∃ i ∈ active, i.parent = m ∧ Function.update left j.node post i.node ≠ [] := by
  obtain ⟨i, hi, rfl, hil⟩ := hm
  -- Jobs have different nodes, so a job with this node is the one at hand.
  by_cases hij : i.node = j.node
  · exact .inl (List.inj_on_of_nodup_map h.cover.active_nodup hi hj hij ▸ rfl)
  · exact .inr ⟨i, hi, rfl, by rwa [Function.update_of_ne hij]⟩

/-- The node that a job on a working chip hangs edges off is the copy of its node. -/
theorem eq_parent_iff (h : Copies f t s active left found) (ht : t.IsProper) (hj : j ∈ active)
    (hlive : f.isChip j.chip = true) {n m : NodeId} (hn : n ∈ found) (hc : t.chip? n = some c)
    (hm : s.index[c]? = some m) : m = j.parent ↔ n = j.node := by
  obtain ⟨hchip, hparent, hsame⟩ := h.job j hj
  rw [hsame hlive] at hparent
  constructor
  · rintro rfl
    obtain rfl : c = j.chip := Option.some.inj ((h.pieces.indexed.1 hm).symm.trans hparent)
    exact ht.eq_of_chip? (h.cover.below n hn) (h.cover.below _ (h.cover.active_mem j hj))
      (hc.trans hchip.symm)
  · rintro rfl
    obtain rfl : c = j.chip := Option.some.inj (hc.symm.trans hchip)
    exact h.pieces.eq_of_chip? (h.pieces.indexed.1 hm) hparent

/-- A working chip without a copy is on no node found. -/
theorem ne_of_found (h : Copies f t s active left found) (hlive : f.isChip c = true)
    (hnew : s.index[c]? = none) {n : NodeId} {b : Chip} (hn : n ∈ found)
    (hb : t.chip? n = some b) : b ≠ c := by
  rintro rfl
  obtain ⟨m, hm⟩ := h.copied.2 ⟨hlive, n, hn, hb⟩
  simp [hnew] at hm

/-- An edge that has come over is shown by the copy and no longer by what is still to be copied. -/
theorem append_update {α : Type} (shown : List Edge → List α)
    (hcons : shown (e :: post) = shown [e] ++ shown post) (hleft : left j.node = e :: post)
    {m n : NodeId} (hsame : m = j.parent ↔ n = j.node) (here : List α) :
    (if m = j.parent then here ++ shown [e] else here) ++
      shown (Function.update left j.node post n) = here ++ shown (left n) := by
  by_cases hn : n = j.node
  · rw [if_pos (hsame.2 hn), hn, Function.update_self, hleft, hcons, List.append_assoc]
  · rw [if_neg (mt hsame.1 hn), Function.update_of_ne hn]

/-- An edge to a node leaves as many endpoints to be copied as before. -/
theorem endings_left (hleft : left j.node = e :: post) (he : e.kid? = some k) (n : NodeId) :
    (Function.update left j.node post n).filterMap Edge.ending? =
      (left n).filterMap Edge.ending? := by
  by_cases hn : n = j.node
  · have hnone : e.ending? = none := by
      unfold Edge.kid? at he
      unfold Edge.ending?
      split at he
      · rfl
      · contradiction
    rw [hn, Function.update_self, hleft, List.filterMap_cons_none hnone]
  · rw [Function.update_of_ne hn]

/-- A chip that heads a piece keeps its node when another chip comes into the index. -/
theorem getElem?_head (h : Copies f t s active left found) (hnew : s.index[c]? = none)
    {b : Chip × Chip} (hb : b ∈ s.broken) :
    b.2 ≠ c ∧ (s.index.insert c s.tree.size)[b.2]? = s.index[b.2]? := by
  obtain ⟨n, -, hn⟩ := h.broken_copied b hb
  have hbc : b.2 ≠ c := fun heq => by simp [heq, hnew] at hn
  exact ⟨hbc, by rw [Pieces.getElem?_insert, if_neg hbc]⟩

/-- The tops after a node is copied. An edge that does not work makes one more, and its chip joins
those that head a piece. -/
theorem heads_copyNode (h : Copies f t s active left found) (hj : j ∈ active)
    (hlive : f.isChip c = true) (hnew : s.index[c]? = none) :
    Pieces f (copyNode f j s e.route k c).tree (s.index.insert c s.tree.size) ∧
      (∀ {n}, (copyNode f j s e.route k c).tree.IsTop n ↔ n = 0 ∨
        ∃ b ∈ (copyNode f j s e.route k c).broken, (s.index.insert c s.tree.size)[b.2]? = some n) ∧
      ((copyNode f j s e.route k c).broken.map (·.2)).Nodup ∧
      ∀ b ∈ (copyNode f j s e.route k c).broken,
        ∃ n, n ≠ 0 ∧ (s.index.insert c s.tree.size)[b.2]? = some n := by
  have hparent := (h.job j hj).2.1
  have hlt := RouteTree.lt_size_of_chip? hparent
  have hpieces := h.pieces.addNode hnew hlive
  have hself : (s.index.insert c s.tree.size)[c]? = some s.tree.size := by
    rw [Pieces.getElem?_insert, if_pos rfl]
  have hheads : ∀ {n}, (∃ b ∈ s.broken, (s.index.insert c s.tree.size)[b.2]? = some n) ↔
      ∃ b ∈ s.broken, s.index[b.2]? = some n := fun {n} => exists_congr fun b =>
    and_congr_right fun hb => by rw [(h.getElem?_head hnew hb).2]
  have hcopied : ∀ b ∈ s.broken, ∃ n, n ≠ 0 ∧ (s.index.insert c s.tree.size)[b.2]? = some n := by
    intro b hb
    rw [(h.getElem?_head hnew hb).2]
    exact h.broken_copied b hb
  cases hl : landsOn f j.parentChip e.route c with
  | true =>
      rw [copyNode_linked _ _ _ _ _ _ hl]
      -- The edge works: the new node is hung up at once, and the tops are the old ones.
      obtain ⟨d, hroute, hlink⟩ := landsOn_iff.1 hl
      have hadded : j.parent < (s.tree.addNode c).size := RouteTree.lt_size_of_chip? (by
        rw [RouteTree.chip?_addNode, if_neg (Nat.ne_of_lt hlt)]
        exact hparent)
      have htop : (s.tree.addNode c).IsTop s.tree.size :=
        (h.pieces.forest.isTop_addNode c).2 (.inr rfl)
      refine ⟨?_, ?_, h.broken_nodup, hcopied⟩
      · rw [hroute]
        refine hpieces.attach htop (RouteTree.not_below_newest hlt c) ?_ (by simp) hlink
        rw [RouteTree.chip?_addNode, if_neg (Nat.ne_of_lt hlt)]
        exact hparent
      · intro n
        rw [RouteTree.isTop_attach hadded, h.pieces.forest.isTop_addNode, hheads, ← h.top]
        constructor
        · exact fun ⟨ho, hne⟩ => ho.resolve_right hne
        · exact fun ho => ⟨.inl ho, Nat.ne_of_lt ho.1⟩
  | false =>
      rw [copyNode_unlinked _ _ _ _ _ _ hl]
      -- The edge does not work: the new node stays a top, and its chip joins the broken ones.
      refine ⟨hpieces, ?_, ?_, ?_⟩
      · intro n
        simp only [h.pieces.forest.isTop_addNode, h.top, List.mem_cons, exists_eq_or_imp, hself,
          hheads, Option.some.injEq, @eq_comm _ _ n]
        rw [or_assoc, @or_comm _ (n = _)]
      · refine List.nodup_cons.2 ⟨fun hm => ?_, h.broken_nodup⟩
        obtain ⟨b, hb, hbc⟩ := List.mem_map.1 hm
        exact (h.getElem?_head hnew hb).1 hbc
      · intro b hb
        rcases List.mem_cons.1 hb with rfl | hb
        · refine ⟨_, fun h0 => ?_, hself⟩
          exact Nat.not_lt_zero _ (h0 ▸ hlt)
        · exact hcopied b hb

/-- The chips with a copy after a node is copied are the working ones found, the new one among
them. -/
theorem copied_copyNode (h : Copies f t s active left found) (hc : t.chip? k = some c)
    (hlive : f.isChip c = true) {b : Chip} :
    (∃ m, (copyNode f j s e.route k c).index[b]? = some m) ↔
      f.isChip b = true ∧ ∃ n ∈ k :: found, t.chip? n = some b := by
  rw [copyNode_index, Pieces.getElem?_insert]
  by_cases hb : b = c
  · subst hb
    simp only [if_true, Option.some.injEq, exists_eq', true_iff]
    exact ⟨hlive, k, List.mem_cons_self .., hc⟩
  · rw [if_neg hb, h.copied]
    refine and_congr_right fun _ => ⟨fun ⟨n, hn, hnb⟩ => ⟨n, List.mem_cons_of_mem _ hn, hnb⟩, ?_⟩
    rintro ⟨n, hn, hnb⟩
    rcases List.mem_cons.1 hn with rfl | hn
    · exact absurd (Option.some.inj (hnb.symm.trans hc)) hb
    · exact ⟨n, hn, hnb⟩

section Step

variable (h : Copies f t s active left found) (hj : j ∈ active) (hleft : left j.node = e :: post)
include h hj hleft

/-- An endpoint is put behind the edges copied before it. -/
theorem whole_terminal (ht : t.IsProper) (hlive : f.isChip j.chip = true) {route : Option Route}
    {x : Endpoint} (he : e = ⟨route, .terminal x⟩) (hw : t.WorksOn f) :
    Whole t { s with tree := s.tree.addEdge j.parent e } (Function.update left j.node post)
      found := by
  subst he
  obtain ⟨hbroken, hdead, hexits⟩ := h.whole hw
  refine ⟨hbroken, hdead, fun {n c m} hn hc hm => ?_⟩
  have hsame := h.eq_parent_iff ht hj hlive hn hc hm
  show (s.tree.addEdge j.parent _).exits m ++ _ = _
  rw [RouteTree.exits_addEdge (RouteTree.lt_size_of_chip? (h.job j hj).2.1), ← hexits hn hc hm]
  exact append_update (List.map t.exit) rfl hleft hsame _

/-- An endpoint on a working chip is copied. The node of the job has the endpoint in the copy now
and no longer among what is still to be copied; no other chip is concerned. -/
theorem terminal (ht : t.IsProper) {route : Option Route} {x : Endpoint}
    (he : e = ⟨route, .terminal x⟩) (hlive : f.isChip j.chip = true) :
    Copies f t { s with tree := s.tree.addEdge j.parent e } active
      (Function.update left j.node post) found := by
  subst he
  obtain ⟨hchip, hparent, hsame⟩ := h.job j hj
  rw [hsame hlive] at hparent
  have hp := RouteTree.lt_size_of_chip? hparent
  have hkids := RouteTree.kids_addEdge_terminal hp route x
  refine ⟨h.cover.terminal hj hleft rfl, h.pieces.addTerminal hp route x, h.root, ?_, ?_,
    h.broken_nodup, h.broken_copied, h.copied, ?_, ?_, ?_, ?_, h.counted,
    h.whole_terminal hj hleft ht hlive rfl⟩
  · rw [RouteTree.chip?_addEdge]
    exact h.root_chip
  · intro n
    rw [RouteTree.isTop_congr (by simp) hkids]
    exact h.top
  · intro i hi
    rw [RouteTree.chip?_addEdge]
    exact h.job i hi
  · intro n c m hn hc hm
    -- The node of the job has its endpoint in the copy now; no other node is on its chip.
    have hsame := h.eq_parent_iff ht hj hlive hn hc hm
    rw [RouteTree.endings_addEdge_terminal hp, ← h.endings hn hc hm]
    exact append_update (List.filterMap Edge.ending?) rfl hleft hsame _
  · intro n c hn hc hdead
    -- The job is on a working chip, this node is not.
    have hnj : n ≠ j.node := by
      rintro rfl
      obtain rfl : c = j.chip := Option.some.inj (hc.symm.trans hchip)
      simp [hlive] at hdead
    rw [Function.update_of_ne hnj]
    exact h.endings_dead hn hc hdead
  · intro hends m c hm hc
    rw [RouteTree.isLeaf_iff, hkids, RouteTree.endings_addEdge_terminal hp] at hm
    have hmp : m ≠ j.parent := by
      rintro rfl
      simp at hm
    rw [if_neg hmp, ← RouteTree.isLeaf_iff] at hm
    rw [RouteTree.chip?_addEdge] at hc
    refine (h.excused hends hm hc).imp_right fun h' => h'.imp_right fun hw => ?_
    exact (h.waiting hj post hw).resolve_left hmp

/-- The edges of a node just found are all still to be copied. -/
theorem left_found (he : e.kid? = some k) :
    Function.update left j.node post k = t.edges k := by
  have hk := h.cover.not_mem_found hj hleft he
  have hkj : k ≠ j.node := fun heq => hk (heq ▸ h.cover.active_mem j hj)
  rw [Function.update_of_ne hkj, h.cover.unfound k hk]

/-- On a dead chip all endpoints stay to be copied, off the node just found as off those before. -/
theorem endings_dead_found (he : e.kid? = some k) {n : NodeId} {b : Chip} (hn : n ∈ k :: found)
    (hb : t.chip? n = some b) (hdead : f.isChip b = false) :
    (Function.update left j.node post n).filterMap Edge.ending? = t.endings n := by
  rcases List.mem_cons.1 hn with rfl | hn
  · rw [h.left_found hj hleft he]
    rfl
  · rw [endings_left hleft he]
    exact h.endings_dead hn hb hdead

/-- A node just found forwards somewhere where every node does. -/
theorem left_found_ne_nil (hends : t.NoDeadEnd) (he : e.kid? = some k) :
    Function.update left j.node post k ≠ [] := by
  have hk := h.cover.not_mem_found hj hleft he
  have := hends k (h.cover.kid_below hj hleft he) fun heq => hk (heq ▸ h.cover.root_mem)
  rw [h.left_found hj hleft he]
  simpa [RouteTree.isLeaf] using this

/-- A tree that works has no dead chip below its root. -/
theorem not_worksOn (he : e.kid? = some k) (hc : t.chip? k = some c)
    (hdead : f.isChip c = false) : ¬ t.WorksOn f := by
  intro hw
  rw [hw.live (h.cover.kid_below hj hleft he) hc] at hdead
  contradiction

/-- A node on a dead chip is left out. Its chip is among the dead, and the edges below it are still
to be copied, off the parent that the job of its parent had. -/
theorem skip (ht : t.IsProper) (he : e.kid? = some k) (hc : t.chip? k = some c)
    (hdead : f.isChip c = false) :
    Copies f t (Cut.skip j s k c) (⟨k, c, j.parent, j.parentChip⟩ :: active)
      (Function.update left j.node post) (k :: found) := by
  refine ⟨h.cover.node hj hleft ht he rfl, h.pieces, h.root, h.root_chip, h.top, h.broken_nodup,
    h.broken_copied, ?_, ?_, ?_, ?_, ?_, congrArg (· + 1) h.counted,
    fun hw => absurd hw (h.not_worksOn hj hleft he hc hdead)⟩
  · intro b
    rw [show (Cut.skip j s k c).index = s.index from rfl, h.copied]
    refine and_congr_right fun hb => ⟨fun ⟨n, hn, hnb⟩ => ⟨n, List.mem_cons_of_mem _ hn, hnb⟩, ?_⟩
    rintro ⟨n, hn, hnb⟩
    rcases List.mem_cons.1 hn with rfl | hn
    · rw [Option.some.inj (hnb.symm.trans hc), hdead] at hb
      contradiction
    · exact ⟨n, hn, hnb⟩
  · intro i hi
    rcases List.mem_cons.1 hi with rfl | hi
    · exact ⟨hc, (h.job j hj).2.1, fun hlive => by simp [hdead] at hlive⟩
    · exact h.job i hi
  · intro n b m hn hb hm
    rw [endings_left hleft he]
    rcases List.mem_cons.1 hn with rfl | hn
    · have := h.pieces.live (h.pieces.indexed.1 hm)
      rw [Option.some.inj (hb.symm.trans hc), hdead] at this
      contradiction
    · exact h.endings hn hb hm
  · exact h.endings_dead_found hj hleft he
  · intro hends m b hm hb
    refine (h.excused hends hm hb).imp_right fun h' => h'.imp_right fun hw => ?_
    rcases h.waiting hj post hw with rfl | ⟨i, hi, hx⟩
    · exact ⟨_, List.mem_cons_self .., rfl, h.left_found_ne_nil hj hleft hends he⟩
    · exact ⟨i, List.mem_cons_of_mem _ hi, hx⟩

/-- In a tree that works the edge to a node does. -/
theorem landsOn_of_worksOn (he : e.kid? = some k) (hc : t.chip? k = some c) (hw : t.WorksOn f) :
    f.isChip j.chip = true ∧ landsOn f j.parentChip e.route c = true := by
  have hbelow := h.cover.below _ (h.cover.active_mem j hj)
  obtain ⟨hchip, -, hsame⟩ := h.job j hj
  have hlive := hw.live hbelow hchip
  have hedge : (e.route, k) ∈ t.childNodes j.node := by
    rw [RouteTree.mem_childNodes, ← Edge.eq_of_kid? he]
    exact (h.cover.suffix j.node).subset (by simp [hleft])
  obtain ⟨source, link, target, hs, hr, htarget, hlink⟩ := hw.lands hbelow hedge
  obtain rfl := Option.some.inj (hchip.symm.trans hs)
  obtain rfl := Option.some.inj (hc.symm.trans htarget)
  exact ⟨hlive, landsOn_iff.2 ⟨link, hr, hsame hlive ▸ hlink⟩⟩

/-- In a tree that works the edge to a node is put behind the edges copied before it. No other edge
comes between, since every edge of such a tree is copied when its turn comes. -/
theorem whole_copyNode (ht : t.IsProper) (he : e.kid? = some k) (hc : t.chip? k = some c)
    (hnew : s.index[c]? = none) (hw : t.WorksOn f) :
    Whole t (copyNode f j s e.route k c) (Function.update left j.node post) (k :: found) := by
  obtain ⟨hbroken, hdead, hexits⟩ := h.whole hw
  obtain ⟨hlive, hlands⟩ := h.landsOn_of_worksOn hj hleft he hc hw
  have hlt := RouteTree.lt_size_of_chip? (h.job j hj).2.1
  have hlt' : j.parent < (s.tree.addNode c).size := by
    rw [RouteTree.size_addNode]
    exact Nat.lt_succ_of_lt hlt
  -- In both trees the edge leads to the chip of the node.
  have hexit : (s.tree.addNode c).exit ⟨e.route, .node s.tree.size⟩ = t.exit e := by
    rw [Edge.eq_of_kid? he]
    simp [RouteTree.exit, hc]
  rw [copyNode_linked _ _ _ _ _ _ hlands]
  refine ⟨hbroken, hdead, fun {n b m} hn hb hm => ?_⟩
  show ((s.tree.addNode c).addEdge j.parent ⟨e.route, .node s.tree.size⟩).exits m ++ _ = _
  rw [RouteTree.exits_addEdge hlt', RouteTree.exits_addNode c fun _ => h.pieces.forest.kid_lt, hexit]
  replace hm : (s.index.insert c s.tree.size)[b]? = some m := hm
  rw [Pieces.getElem?_insert] at hm
  rcases List.mem_cons.1 hn with rfl | hn
  · -- Nothing hangs off the new node yet, and all of its edges are still to be copied.
    obtain rfl : b = c := Option.some.inj (hb.symm.trans hc)
    rw [if_pos rfl] at hm
    obtain rfl := Option.some.inj hm
    rw [if_neg (Nat.ne_of_gt hlt), RouteTree.exits, RouteTree.edges_eq_nil (Nat.le_refl _),
      h.left_found hj hleft he]
    rfl
  · have hnewLive := hw.live (h.cover.kid_below hj hleft he) hc
    rw [if_neg (h.ne_of_found hnewLive hnew hn hb)] at hm
    rw [← hexits hn hb hm]
    exact append_update (List.map t.exit) rfl hleft (h.eq_parent_iff ht hj hlive hn hb hm) _

/-- What hangs off a chip with a copy, and what is still to be copied, is what hung off it before,
also once a node is copied. -/
theorem endings_copyNode (he : e.kid? = some k) (hc : t.chip? k = some c)
    (hlive : f.isChip c = true) (hnew : s.index[c]? = none) {n m : NodeId} {b : Chip}
    (hn : n ∈ k :: found) (hb : t.chip? n = some b)
    (hm : (copyNode f j s e.route k c).index[b]? = some m) :
    (copyNode f j s e.route k c).tree.endings m ++
      (Function.update left j.node post n).filterMap Edge.ending? = t.endings n := by
  have hlt := RouteTree.lt_size_of_chip? (h.job j hj).2.1
  rw [endings_left hleft he, copyNode_endings _ _ _ _ _ _ hlt]
  rw [copyNode_index, Pieces.getElem?_insert] at hm
  rcases List.mem_cons.1 hn with rfl | hn
  · -- Nothing hangs off the new node yet, and all of its edges are still to be copied.
    obtain rfl : b = c := Option.some.inj (hb.symm.trans hc)
    rw [if_pos rfl] at hm
    obtain rfl := Option.some.inj hm
    rw [RouteTree.endings, RouteTree.edges_eq_nil (Nat.le_refl _), ← endings_left hleft he,
      h.left_found hj hleft he]
    rfl
  · rw [if_neg (h.ne_of_found hlive hnew hn hb)] at hm
    exact h.endings hn hb hm

/-- A node that forwards nowhere after a node is copied is the root, or heads a broken edge, or
waits for a job with edges to copy. -/
theorem excused_copyNode (he : e.kid? = some k) (hends : t.NoDeadEnd) {m : NodeId} {b : Chip}
    (hm : (copyNode f j s e.route k c).tree.isLeaf m = true)
    (hb : (copyNode f j s e.route k c).tree.chip? m = some b) :
    m = 0 ∨ b ∈ (copyNode f j s e.route k c).broken.map (·.1) ∨
      ∃ i ∈ (⟨k, c, s.tree.size, c⟩ : Job) :: active,
        i.parent = m ∧ Function.update left j.node post i.node ≠ [] := by
  have hparent := (h.job j hj).2.1
  obtain ⟨hleaf, hunlinked⟩ :=
    of_isLeaf_copyNode f j s e.route k c (RouteTree.lt_size_of_chip? hparent) hm
  have hne := h.left_found_ne_nil hj hleft hends he
  rw [copyNode_chip?] at hb
  split at hb
  · -- The new node waits for its own job, which has edges to copy.
    next hms => exact .inr (.inr ⟨_, List.mem_cons_self .., hms.symm, hne⟩)
  · refine (h.excused hends hleaf hb).imp_right fun h' => ?_
    rcases h' with hmem | hw
    · exact .inl (mem_broken_copyNode f j s e.route k c hmem)
    · rcases h.waiting hj post hw with rfl | ⟨i, hi, hx⟩
      · -- The parent waited for this job. It stays a leaf only if the edge does not work, and
        -- then it heads a broken one.
        obtain rfl : b = j.parentChip := Option.some.inj (hb.symm.trans hparent)
        rw [copyNode_unlinked _ _ _ _ _ _ (hunlinked rfl)]
        exact .inl (List.mem_cons_self ..)
      · exact .inr ⟨i, List.mem_cons_of_mem _ hi, hx⟩

/-- A node on a working chip is copied, with its edge or as a piece of its own. The edges of the
node are all still to be copied, and the job that is to copy them is at hand. -/
theorem copyNode (ht : t.IsProper) (he : e.kid? = some k) (hc : t.chip? k = some c)
    (hlive : f.isChip c = true) (hnew : s.index[c]? = none) :
    Copies f t (copyNode f j s e.route k c) (⟨k, c, s.tree.size, c⟩ :: active)
      (Function.update left j.node post) (k :: found) := by
  have hparent := (h.job j hj).2.1
  have hlt := RouteTree.lt_size_of_chip? hparent
  obtain ⟨hpieces, htop, hnodup, hcopied⟩ := h.heads_copyNode hj hlive hnew (k := k)
  have hold : ∀ {m b}, s.tree.chip? m = some b →
      (Cut.copyNode f j s e.route k c).tree.chip? m = some b := by
    intro m b hm
    rw [copyNode_chip?, if_neg (Nat.ne_of_lt (RouteTree.lt_size_of_chip? hm)), hm]
  rw [← copyNode_index f j s e.route k c] at hpieces htop hcopied
  refine ⟨h.cover.node hj hleft ht he rfl, hpieces, ?_, ?_, htop, hnodup, hcopied, ?_, ?_, ?_, ?_,
    ?_, ?_, h.whole_copyNode hj hleft ht he hc hnew⟩
  · rw [copyNode_root]
    exact h.root
  · rw [copyNode_chip?, if_neg (Nat.ne_of_lt (Nat.lt_of_le_of_lt (Nat.zero_le _) hlt))]
    exact h.root_chip
  · exact h.copied_copyNode hc hlive
  · intro i hi
    rcases List.mem_cons.1 hi with rfl | hi
    · exact ⟨hc, by rw [copyNode_chip?, if_pos rfl], fun _ => rfl⟩
    · obtain ⟨hn, hp, hs⟩ := h.job i hi
      exact ⟨hn, hold hp, hs⟩
  · exact h.endings_copyNode hj hleft he hc hlive hnew
  · exact h.endings_dead_found hj hleft he
  · exact h.excused_copyNode hj hleft he
  · have hnot : ¬ s.index.contains c = true := by
      simp [Std.ExtTreeMap.contains_eq_isSome_getElem?, hnew]
    rw [copyNode_index, copyNode_dead, Std.ExtTreeMap.size_insert, if_neg hnot, List.length_cons,
      ← h.counted, Nat.add_right_comm]

end Step

end Copies

/-- The root alone. All edges are still to be copied. -/
theorem Copies.initial {f : Fabric} {t : RouteTree} {rootChip : Chip} (ht : t.IsProper)
    (hroot : t.chip? t.root = some rootChip) (hlive : f.isChip rootChip = true) :
    Copies f t (Cut.initial t rootChip) [⟨t.root, rootChip, 0, rootChip⟩] t.edges [t.root] := by
  have hindex : ∀ {c m}, (Cut.initial t rootChip).index[c]? = some m ↔ m = 0 ∧ rootChip = c :=
    fun {c m} => (Pieces.single hlive).indexed.trans RouteTree.chip?_single
  have hchip : (RouteTree.single rootChip).chip? 0 = some rootChip := rfl
  refine ⟨.initial ht rfl, .single hlive, rfl, hroot.symm, ?_, List.nodup_nil,
    by simp [Cut.initial], ?_, ?_, ?_, ?_, ?_, ?_, fun _ => ⟨rfl, rfl, fun {n c m} hn _ _ => ?_⟩⟩
  · intro n
    rw [show (Cut.initial t rootChip).tree = .single rootChip from rfl, RouteTree.isTop_single]
    simp [Cut.initial]
  · intro c
    simp only [hindex, List.mem_singleton, exists_eq_left, hroot, Option.some.injEq]
    exact ⟨fun h => ⟨h ▸ hlive, h⟩, And.right⟩
  · intro j hj
    obtain rfl := List.mem_singleton.1 hj
    exact ⟨hroot, hchip, fun _ => rfl⟩
  · intro n c m hn hc hm
    obtain rfl := List.mem_singleton.1 hn
    exact congrArg (· ++ _) (RouteTree.endings_single rootChip m)
  · exact fun _ _ _ => rfl
  · intro _ m c _ hc
    exact .inl (RouteTree.chip?_single.1 hc).1
  · simp [Cut.initial, Std.ExtTreeMap.size_insert]
  · obtain rfl := List.mem_singleton.1 hn
    exact congrArg (· ++ _) (RouteTree.exits_single rootChip m)

end Multicast.Cut
