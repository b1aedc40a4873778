import Multicast.Proofs.Repair.Cut
import Multicast.Proofs.Repair.Detour
import Multicast.Repair.Reconnect

/-!
# `Multicast.Proofs.Repair.Reconnect`: hanging the cut-off pieces up again

`Mends` is what holds of a tree while its broken edges are made good: it is in
pieces, its nodes are those of the copy with more behind them, and what hangs off
them is unchanged. Which nodes are tops and which chips may forward nowhere are
parameters, since every step changes them: a step is an `addNode`, a `detach` or an
`attach`, and a detour is a row of such steps.

A node may only be hung below a node that is not below it. While a detour is threaded
this follows from a set of nodes that holds the parents of its members (`Above`): it
starts as the nodes outside the cut-off piece and takes in each chip of the detour,
none of which is met twice.

`mendAll_spec` says that all pieces are hung up again, or that one of them has no
path from the root.
-/

set_option autoImplicit false

namespace Multicast.Reconnect

/-- A tree under repair: pieces with the given tops, over the nodes of the copy, where only
the root and the chips that are excused forward nowhere. -/
structure Mends (f : Fabric) (cut : CutTree) (tops : NodeId → Prop) (excused : Chip → Prop)
    (t : RouteTree) (index : ChipMap) : Prop where
  pieces : Pieces f t index
  root : t.root = 0
  top : ∀ {n}, t.IsTop n ↔ tops n
  kept : ∀ {c : Chip} {n : NodeId}, cut.index[c]? = some n → index[c]? = some n
  endings : ∀ {n}, t.endings n = cut.tree.endings n
  leaf : ∀ {m c}, t.isLeaf m = true → t.chip? m = some c → m = 0 ∨ excused c

/-- The nodes of a set have their parents in it. -/
def Above (t : RouteTree) (set : NodeId → Prop) : Prop :=
  ∀ p n, n ∈ t.kids p → set n → set p

/-- A node outside such a set has no node of it below. -/
theorem Above.not_below {t : RouteTree} {set : NodeId → Prop} (h : Above t set) {n p : NodeId}
    (hp : set p) (hn : ¬ set n) : ¬ t.Below n p := fun hb =>
  hn (hb.induct_up hp h)

/-- Fewer edges leave fewer parents to look for. -/
theorem Above.of_kids {t u : RouteTree} {set : NodeId → Prop} (h : Above t set)
    (hk : ∀ {p n}, n ∈ u.kids p → n ∈ t.kids p) : Above u set := fun p n hn hs =>
  h p n (hk hn) hs

/-- A top hung below a node of the set joins it. -/
theorem Above.attach {t : RouteTree} {set : NodeId → Prop} {n p : NodeId} (h : Above t set)
    (hset : set p) (hp : p < t.size) (hn : t.IsTop n) (route : Option Route) :
    Above (t.addEdge p ⟨route, .node n⟩) fun m => set m ∨ m = n := by
  intro q m hk hm
  rcases (RouteTree.mem_kids_attach hp route).1 hk with hold | ⟨rfl, -⟩
  · rcases hm with hm | rfl
    · exact .inl (h q m hold hm)
    · exact absurd hold (hn.2 q)
  · exact .inl hset

namespace Mends

variable {f : Fabric} {cut : CutTree} {tops tops' : NodeId → Prop} {excused excused' : Chip → Prop}
  {t : RouteTree} {index : ChipMap} {n p : NodeId} {a b c : Chip}

/-- The tops and the excused chips matter through their members only. -/
theorem congr (h : Mends f cut tops excused t index) (htops : ∀ n, tops n ↔ tops' n)
    (hexcused : ∀ c, excused c → excused' c) : Mends f cut tops' excused' t index :=
  { h with
    top := h.top.trans (htops _)
    leaf := fun hm hc => (h.leaf hm hc).imp_right (hexcused _) }

/-- A new node is a top that forwards nowhere. -/
theorem addNode (h : Mends f cut tops excused t index) (hnew : index[c]? = none)
    (hc : f.isChip c = true) : Mends f cut (fun n => tops n ∨ n = t.size)
      (fun b => excused b ∨ b = c) (t.addNode c) (index.insert c t.size) where
  pieces := h.pieces.addNode hnew hc
  root := h.root
  top := by
    intro n
    rw [h.pieces.forest.isTop_addNode, h.top]
  kept := by
    intro b n hb
    have hbn := h.kept hb
    rw [Pieces.getElem?_insert, if_neg fun heq => ?_, hbn]
    simp [heq, hnew] at hbn
  endings := by
    intro n
    rw [RouteTree.endings_addNode]
    exact h.endings
  leaf := by
    intro m b hm hb
    rw [RouteTree.chip?_addNode] at hb
    split at hb
    · exact .inr (.inr (Option.some.inj hb).symm)
    · rw [RouteTree.isLeaf_iff, RouteTree.kids_addNode, RouteTree.endings_addNode,
        ← RouteTree.isLeaf_iff] at hm
      exact (h.leaf hm hb).imp_right .inl

/-- A node taken from its parent is a top; the parent may forward nowhere then. -/
theorem detach (h : Mends f cut tops excused t index) (hk : n ∈ t.kids p)
    (hp : t.chip? p = some c) : Mends f cut (fun m => tops m ∨ m = n)
      (fun b => excused b ∨ b = c) (t.removeEdge p (.node n)) index where
  pieces := h.pieces.detach hk
  root := h.root
  top := by
    intro m
    rw [h.pieces.forest.isTop_detach hk, h.top]
  kept := h.kept
  endings := by
    intro m
    rw [RouteTree.endings_removeEdge]
    exact h.endings
  leaf := by
    intro m b hm hb
    rw [RouteTree.chip?_removeEdge] at hb
    by_cases hmp : m = p
    · subst hmp
      exact .inr (.inr (Option.some.inj (hb.symm.trans hp)))
    · rw [RouteTree.isLeaf_iff, RouteTree.kids_removeEdge, if_neg hmp,
        RouteTree.endings_removeEdge, ← RouteTree.isLeaf_iff] at hm
      exact (h.leaf hm hb).imp_right .inl

/-- A top hung up is a top no more, and the node it hangs off needs no excuse. -/
theorem attach (h : Mends f cut tops (fun b => excused b ∨ b = a) t index) (hn : tops n)
    (hnp : ¬ t.Below n p) {link : Direction} (ha : t.chip? p = some a) (hb : t.chip? n = some b)
    (hlink : f.follow? a link = some b) :
    Mends f cut (fun m => tops m ∧ m ≠ n) excused
      (t.addEdge p ⟨some (.link link), .node n⟩) index where
  pieces := h.pieces.attach (h.top.2 hn) hnp ha hb hlink
  root := h.root
  top := by
    intro m
    rw [RouteTree.isTop_attach (RouteTree.lt_size_of_chip? ha), h.top]
  kept := h.kept
  endings := by
    intro m
    rw [RouteTree.endings_addEdge_node (RouteTree.lt_size_of_chip? ha)]
    exact h.endings
  leaf := by
    intro m c hm hc
    have hp := RouteTree.lt_size_of_chip? ha
    rw [RouteTree.chip?_addEdge] at hc
    rw [RouteTree.isLeaf_iff, RouteTree.kids_addEdge_node hp,
      RouteTree.endings_addEdge_node hp] at hm
    have hmp : m ≠ p := by
      rintro rfl
      simp at hm
    rw [if_neg hmp, ← RouteTree.isLeaf_iff] at hm
    refine (h.leaf hm hc).imp_right fun hx => hx.resolve_right ?_
    rintro rfl
    exact hmp (h.pieces.eq_of_chip? hc ha)

end Mends

/-! ### Threading a detour -/

/-- A tree while a detour is threaded into it: the node of the last hop may forward nowhere, and
with its parents it lies in a set that the piece hung up last has no node in but its path. -/
structure Threads (f : Fabric) (cut : CutTree) (tops : NodeId → Prop) (excused : Chip → Prop)
    (set : NodeId → Prop) (tip : Chip) (s : Threading) : Prop where
  mends : Mends f cut tops (fun c => (excused c ∨ c ∈ s.bereft) ∨ c = tip) s.tree s.index
  last : s.tree.chip? s.last = some tip
  mem : set s.last
  above : Above s.tree set

namespace Threads

variable {f : Fabric} {cut : CutTree} {tops : NodeId → Prop} {excused : Chip → Prop}
  {set : NodeId → Prop} {a b : Chip} {s : Threading} {n : NodeId} {link : Direction}

/-- A node of the cut-off piece is taken from its parent and hung off the last hop. -/
theorem move (h : Threads f cut tops excused set a s) (hn : s.tree.chip? n = some b)
    (hset : ¬ set n) (htop : ¬ tops n) (hlink : f.follow? a link = some b) :
    Threads f cut tops excused (fun m => set m ∨ m = n) b
      { detach s n with
        tree := (detach s n).tree.addEdge s.last ⟨some (.link link), .node n⟩
        last := n } := by
  -- The node has a parent, since it is no top; it is taken from it and hung up again.
  have hforest := h.mends.pieces.forest
  cases hparent : s.tree.parent? n with
  | none =>
      have htop' : s.tree.IsTop n :=
        ⟨RouteTree.lt_size_of_chip? hn, RouteTree.parent?_eq_none hparent⟩
      exact absurd (h.mends.top.1 htop') htop
  | some p =>
      have hk := RouteTree.parent?_eq_some hparent
      obtain ⟨c, hc⟩ := RouteTree.exists_chip?_iff.2 (RouteTree.lt_size_of_mem_kids hk)
      have hdetach : detach s n =
          { s with tree := s.tree.removeEdge p (.node n), bereft := c :: s.bereft } := by
        simp [detach, hparent, hc]
      -- The set is still closed upwards, so the last hop is not below the node.
      have habove : Above (s.tree.removeEdge p (.node n)) set :=
        h.above.of_kids fun hk => (hforest.mem_kids_detach.1 hk).1
      have hfree : Mends f cut (fun m => tops m ∨ m = n)
          (fun d => (excused d ∨ d ∈ c :: s.bereft) ∨ d = a) (s.tree.removeEdge p (.node n))
          s.index := (h.mends.detach hk hc).congr (fun _ => Iff.rfl) fun d hd => by
        simp only [List.mem_cons]
        tauto
      have hattach := hfree.attach (p := s.last) (b := b) (.inr rfl) (habove.not_below h.mem hset)
        (by simpa using h.last) (by simpa using hn) hlink
      rw [hdetach]
      refine ⟨hattach.congr (fun m => ?_) fun _ => .inl, by simpa using hn, .inr rfl, ?_⟩
      · constructor
        · exact fun ⟨hm, hne⟩ => hm.resolve_right hne
        · exact fun hm => ⟨.inl hm, fun heq => htop (heq ▸ hm)⟩
      · refine habove.attach h.mem ?_ ((hforest.isTop_detach hk).2 (.inr rfl)) _
        rw [RouteTree.size_removeEdge]
        exact RouteTree.lt_size_of_chip? h.last

/-- A new node is hung off the last hop. -/
theorem extend (h : Threads f cut tops excused set a s) (hnew : s.index[b]? = none)
    (hlink : f.follow? a link = some b) :
    Threads f cut tops excused (fun m => set m ∨ m = s.tree.size) b
      { s with
        tree := s.tree.addChild s.last (some (.link link)) b
        index := s.index.insert b s.tree.size
        last := s.tree.size
        created := s.created + 1 } := by
  have hlt := RouteTree.lt_size_of_chip? h.last
  have hforest := h.mends.pieces.forest
  -- First the new node stands alone, then it is hung off the last hop.
  have hadd := (h.mends.addNode hnew (Fabric.isChip_of_follow? hlink).2).congr
    (fun _ => Iff.rfl) fun _ => or_right_comm.1
  have hlast : (s.tree.addNode b).chip? s.last = some a := by
    rw [RouteTree.chip?_addNode, if_neg (Nat.ne_of_lt hlt), h.last]
  have hattach := hadd.attach (p := s.last) (.inr rfl) (RouteTree.not_below_newest hlt b) hlast
    (by simp) hlink
  rw [RouteTree.addChild_eq]
  refine ⟨hattach.congr (fun m => ?_) fun _ => id, by simp, .inr rfl, ?_⟩
  · constructor
    · exact fun ⟨hm, hne⟩ => hm.resolve_right hne
    · exact fun hm => ⟨.inl hm, Nat.ne_of_lt (h.mends.top.2 hm).1⟩
  · refine (h.above.of_kids fun hk => ?_).attach h.mem ?_ ?_ _
    · rwa [RouteTree.kids_addNode] at hk
    · rw [RouteTree.size_addNode]
      exact Nat.lt_succ_of_lt hlt
    · exact (hforest.isTop_addNode b).2 (.inr rfl)

end Threads

section Thread

variable {f : Fabric} {cut : CutTree} {tops inside set : NodeId → Prop} {excused : Chip → Prop}
  {subtree : Std.ExtTreeSet NodeId} {a target : Chip} {s : Threading} {child : NodeId}

/-- One hop that lands before the end of the detour. On a chip of the piece its node is moved below
the last one; on a chip that is not in the tree a new node is hung there. -/
theorem threadHop_spec (hsub : ∀ n, subtree.contains n = true ↔ inside n) {hop : Hop}
    (h : Threads f cut tops excused set a s) (hlink : f.follow? a hop.link = some hop.chip)
    (hahead : ∀ n, s.index[hop.chip]? = some n → inside n ∧ ¬ set n ∧ ¬ tops n) :
    ∃ s' n, threadHop subtree s hop = .ok s' ∧
      Threads f cut tops excused (fun m => set m ∨ m = n) hop.chip s' ∧
      s'.tree.chip? n = some hop.chip ∧
      ∀ c, c ≠ hop.chip → s'.index[c]? = s.index[c]? := by
  unfold threadHop
  cases hn : s.index[hop.chip]? with
  | some n =>
      obtain ⟨hin, hset, htop⟩ := hahead n hn
      have hmove := h.move (h.mends.pieces.indexed.1 hn) hset htop hlink
      have hindex : (detach s n).index = s.index := by
        unfold detach
        split <;> rfl
      simp only [(hsub n).2 hin, if_true]
      refine ⟨_, n, rfl, hmove, hmove.last, fun c _ => ?_⟩
      rw [← hindex]
  | none =>
      have hext := h.extend hn hlink
      refine ⟨_, s.tree.size, by simp only [RouteTree.newest_addChild], hext, hext.last,
        fun c hc => ?_⟩
      show (s.index.insert hop.chip _)[c]? = _
      rw [Pieces.getElem?_insert, if_neg hc]

/-- A detour hangs up the piece it leads to, and nothing else changes its top. The set that holds
the parents of its members keeps the piece from being hung below itself. -/
theorem thread_spec (hsub : ∀ n, subtree.contains n = true ↔ inside n)
    (hinside : ∀ n, inside n → tops n → n = child) (hchild : tops child) {hops : List Hop}
    (hne : hops ≠ []) (h : Threads f cut tops excused set a s) (hwalk : f.IsWalk a hops target)
    (hnodup : (hops.map (·.chip)).Nodup)
    (hahead : ∀ hop ∈ hops, ∀ n, s.index[hop.chip]? = some n → inside n ∧ ¬ set n)
    (hindex : s.index[target]? = some child) :
    ∃ s', thread subtree s hops = .ok s' ∧
      Mends f cut (fun n => tops n ∧ n ≠ child) (fun c => excused c ∨ c ∈ s'.bereft)
        s'.tree s'.index := by
  -- Along the hops; the set takes in the node of each, and the hops ahead stay outside it.
  induction hops generalizing s a set with
  | nil => contradiction
  | cons hop rest ih =>
      obtain ⟨hlink, hwalk⟩ := hwalk
      cases rest with
      | nil =>
          -- The last hop lands on the piece itself, which is a top not above the last node.
          obtain rfl : hop.chip = target := hwalk
          have hset := (hahead hop (List.mem_cons_self ..) child hindex).2
          have hchip := h.mends.pieces.indexed.1 hindex
          refine ⟨{ s with tree := s.tree.addEdge s.last ⟨some (.link hop.link), .node child⟩ },
            by simp only [thread, hindex], ?_⟩
          exact h.mends.attach hchild (h.above.not_below h.mem hset) h.last hchip hlink
      | cons hop' rest =>
          have hother : ∀ x ∈ hop' :: rest, x.chip ≠ hop.chip := by
            intro x hx heq
            exact (List.nodup_cons.1 hnodup).1 (List.mem_map.2 ⟨x, hx, heq⟩)
          have htarget : target ≠ hop.chip := by
            obtain ⟨x, hx, rfl⟩ := hwalk.exists_chip (List.cons_ne_nil _ _)
            exact hother x hx
          -- A node met before the end is inside the piece but is not its top, which comes last.
          have hmeet : ∀ n, s.index[hop.chip]? = some n → inside n ∧ ¬ set n ∧ ¬ tops n := by
            intro n hn
            obtain ⟨hin, hset⟩ := hahead hop (List.mem_cons_self ..) n hn
            refine ⟨hin, hset, fun htop => htarget ?_⟩
            obtain rfl := hinside n hin htop
            exact h.mends.pieces.eq_of_indexed hindex hn
          obtain ⟨s', n, hs', hthreads, hn, hsame⟩ := threadHop_spec hsub h hlink hmeet
          rw [thread, hs']
          swap
          · exact List.cons_ne_nil _ _
          refine ih (List.cons_ne_nil _ _) hthreads hwalk (List.nodup_cons.1 hnodup).2 ?_ ?_
          · intro x hx m hm
            have hxn := hother x hx
            rw [hsame _ hxn] at hm
            obtain ⟨hin, hset⟩ := hahead x (List.mem_cons_of_mem _ hx) m hm
            refine ⟨hin, fun hor => hor.elim hset ?_⟩
            rintro rfl
            rw [← hsame _ hxn] at hm
            exact hxn (Option.some.inj
              ((hthreads.mends.pieces.indexed.1 hm).symm.trans hn))
          · rw [hsame _ htarget, hindex]

end Thread

/-! ### Counting what is created -/

section Count

variable {subtree : Std.ExtTreeSet NodeId} {s s' : Threading} {hop : Hop} {hops : List Hop}

/-- A hop puts a chip into the index exactly when it creates a node. A hop that moves a node leaves
both as they are. -/
theorem size_threadHop (h : threadHop subtree s hop = .ok s') :
    s'.index.size + s.created = s.index.size + s'.created := by
  unfold threadHop at h
  cases hn : s.index[hop.chip]? with
  | some n =>
      simp only [hn] at h
      split at h
      · obtain rfl := Except.ok.inj h
        show (detach s n).index.size + s.created = s.index.size + (detach s n).created
        unfold detach
        split <;> rfl
      · contradiction
  | none =>
      simp only [hn] at h
      obtain rfl := Except.ok.inj h
      have hnot : ¬ s.index.contains hop.chip = true := by
        simp [Std.ExtTreeMap.contains_eq_isSome_getElem?, hn]
      show (s.index.insert _ _).size + s.created = s.index.size + (s.created + 1)
      rw [Std.ExtTreeMap.size_insert, if_neg hnot]
      omega

/-- A thread that succeeds has made one node for each chip it adds to the index. -/
theorem size_thread (h : thread subtree s hops = .ok s') :
    s'.index.size + s.created = s.index.size + s'.created := by
  induction hops generalizing s with
  | nil =>
      obtain rfl := Except.ok.inj h
      rfl
  | cons hop rest ih =>
      cases rest with
      | nil =>
          -- The last hop lands on a node that is there.
          unfold thread at h
          split at h
          · obtain rfl := Except.ok.inj h
            rfl
          · obtain rfl := Except.ok.inj h
            rfl
      | cons hop' rest =>
          obtain ⟨mid, hmid, h⟩ := bind_eq_ok.1 h
          have := size_threadHop hmid
          have := ih h
          omega

variable {f : Fabric} {m m' : Mending} {edge : Chip × Chip} {edges : List (Chip × Chip)}

/-- To mend one edge adds as many chips to the index as it counts. -/
theorem size_mend (h : mend f m edge = .ok m') :
    m'.index.size + m.added = m.index.size + m'.added := by
  unfold mend at h
  split at h
  · contradiction
  · obtain ⟨detour, -, h⟩ := bind_eq_ok.1 h
    split at h
    · obtain rfl := Except.ok.inj h
      rfl
    · obtain ⟨threaded, hthread, h⟩ := bind_eq_ok.1 h
      obtain rfl := Except.ok.inj h
      have := size_thread hthread
      simp only at this ⊢
      omega

/-- So does a repair of all edges, which is the count it reports. -/
theorem size_mendAll (h : mendAll f m edges = .ok m') :
    m'.index.size + m.added = m.index.size + m'.added := by
  induction edges generalizing m with
  | nil =>
      obtain rfl := Except.ok.inj h
      rfl
  | cons edge edges ih =>
      obtain ⟨mid, hmid, h⟩ := bind_eq_ok.1 h
      have := size_mend hmid
      have := ih h
      omega

end Count

/-! ### Mending -/

/-- The tops while these edges are still to be made good. -/
def Heads (cut : CutTree) (rest : List (Chip × Chip)) (n : NodeId) : Prop :=
  n = 0 ∨ ∃ b ∈ rest, cut.index[b.2]? = some n

section Mend

variable {f : Fabric} {t : RouteTree} {cut : CutTree} {excused : Chip → Prop} {rootChip : Chip}
  {s : Mending} {b : Chip × Chip} {rest : List (Chip × Chip)}

/-- With one edge made good, one top is gone. The chips that head a piece are different ones, and
each has a node of its own. -/
theorem heads_iff (hcut : cut.Covers f t) (hb : b ∈ cut.broken)
    (hnodup : ((b :: rest).map (·.2)).Nodup) {child : NodeId}
    (hchild : cut.index[b.2]? = some child) (n : NodeId) :
    Heads cut (b :: rest) n ∧ n ≠ child ↔ Heads cut rest n := by
  obtain ⟨n', hne, hn'⟩ := hcut.broken_copied b hb
  obtain rfl := Option.some.inj (hchild.symm.trans hn')
  simp only [Heads, List.exists_mem_cons_iff, hchild, Option.some.injEq]
  constructor
  · rintro ⟨h0 | heq | hx, hn⟩
    · exact .inl h0
    · exact absurd heq.symm hn
    · exact .inr hx
  · rintro (rfl | ⟨b', hb', hn⟩)
    · exact ⟨.inl rfl, hne.symm⟩
    · refine ⟨.inr (.inr ⟨b', hb', hn⟩), ?_⟩
      rintro rfl
      have heq : b'.2 = b.2 := hcut.pieces.eq_of_indexed hn hchild
      exact (List.nodup_cons.1 hnodup).1 (List.mem_map.2 ⟨b', hb', heq⟩)

/-- A goal of the search is a chip of the tree outside the piece. -/
theorem goal_iff {index : ChipMap} {subtree : Std.ExtTreeSet NodeId} {c : Chip} :
    (match index[c]? with
      | some n => !subtree.contains n
      | none => false) = true ↔ ∃ n, index[c]? = some n ∧ ¬ subtree.contains n = true := by
  cases index[c]? with
  | none => simp
  | some n =>
      rw [Bool.not_eq_true', ← Bool.not_eq_true]
      simp only [Option.some.injEq, exists_eq_left']

/-- One edge is made good, unless the root has no path to the piece behind it. The search from the
piece ends on a chip outside it, and if it finds none, the root would have been one. Its hops back
lead to the piece over chips that are not in the tree or belong to the piece. -/
theorem mend_spec (hcut : cut.Covers f t) (hroot : t.chip? t.root = some rootChip)
    (hb : b ∈ cut.broken) (hnodup : ((b :: rest).map (·.2)).Nodup)
    (h : Mends f cut (Heads cut (b :: rest)) (fun c => excused c ∨ c ∈ s.bereft) s.tree s.index) :
    (∃ s', mend f s b = .ok s' ∧
      Mends f cut (Heads cut rest) (fun c => excused c ∨ c ∈ s'.bereft) s'.tree s'.index) ∨
    mend f s b = .error (.noLivePath b.2 b.1) ∧ ¬ f.Joined rootChip b.2 := by
  obtain ⟨child, hne, hchild⟩ := hcut.broken_copied b hb
  have hindex := h.kept hchild
  have hlive := h.pieces.live (h.pieces.indexed.1 hindex)
  have hhead : Heads cut (b :: rest) child := .inr ⟨b, List.mem_cons_self .., hchild⟩
  have hlt : ∀ n, s.tree.Below child n → n < s.tree.size := fun n hn =>
    h.pieces.forest.lt_of_below (h.top.2 hhead).1 hn
  have hsub : ∀ n, (Std.ExtTreeSet.ofList (s.tree.subtree child)).contains n = true ↔
      s.tree.Below child n := by
    intro n
    rw [Std.ExtTreeSet.contains_ofList, List.contains_iff_mem, RouteTree.mem_subtree hlt]
  have hzero : s.index[rootChip]? = some 0 := h.kept (hcut.pieces.indexed.2
    (hcut.root_chip.trans hroot))
  have hzero_top : s.tree.IsTop 0 := h.top.2 (.inl rfl)
  simp only [mend, hindex]
  cases hdetour : f.detour b.2 b.1 fun c =>
      match s.index[c]? with
      | some n => !(Std.ExtTreeSet.ofList (s.tree.subtree child)).contains n
      | none => false with
  | error e =>
      obtain ⟨rfl, hno⟩ := Fabric.detour_eq_error (Fabric.contains_of_isChip hlive) hdetour
      -- A path from the root would start on a goal: the root is outside the piece.
      refine .inr ⟨rfl, fun hjoined => ?_⟩
      have hgoal := goal_iff.2 ⟨0, hzero, fun hin => hne (hzero_top.eq_of_below ((hsub 0).1 hin))⟩
      exact Bool.false_ne_true ((hno rootChip hjoined).symm.trans hgoal)
  | ok detour =>
      obtain ⟨hgoal, hwalk, hchips, hbefore⟩ :=
        Fabric.detour_eq_ok (Fabric.contains_of_isChip hlive) hdetour
      obtain ⟨start, hstart, hout⟩ := goal_iff.1 hgoal
      rw [hsub] at hout
      -- A detour without hops would start on the piece, where no goal is.
      have hhops : detour.hops ≠ [] := by
        intro hnil
        rw [hnil] at hwalk
        obtain rfl : child = start := Option.some.inj
          (hindex.symm.trans ((show detour.start = b.2 from hwalk) ▸ hstart))
        exact hout .refl
      -- Outside the piece nodes have their parents outside too.
      have hthreads : Threads f cut (Heads cut (b :: rest)) excused
          (fun n => ¬ s.tree.Below child n) detour.start ⟨s.tree, s.index, start, 0, s.bereft⟩ :=
        ⟨h.congr (fun _ => Iff.rfl) fun _ => .inl, h.pieces.indexed.1 hstart, hout,
          fun p n hk hn hp => hn (hp.step hk)⟩
      obtain ⟨s', hs', hmends⟩ := thread_spec hsub
        (fun n hin htop => ((h.top.2 htop).eq_of_below hin).symm) hhead hhops hthreads hwalk
        (List.nodup_cons.1 hchips).2 (fun hop hhop n hn => by
          have hno := hbefore hop hhop
          have hin : s.tree.Below child n := by
            by_contra hin
            rw [← hsub] at hin
            exact Bool.false_ne_true (hno.symm.trans (goal_iff.2 ⟨n, hn, hin⟩))
          exact ⟨hin, not_not.2 hin⟩) hindex
      refine .inl ⟨⟨s'.tree, s'.index, s.added + s'.created, s'.bereft⟩, ?_, ?_⟩
      · simp only [bind, Except.bind, hstart, hs']
        rfl
      · exact hmends.congr (heads_iff hcut hb hnodup hchild) fun _ => id

/-- All edges are made good, unless the root has no path to the piece behind one of them. By
induction on the edges, with the tops that are left as the invariant. -/
theorem mendAll_spec (hcut : cut.Covers f t) (hroot : t.chip? t.root = some rootChip)
    (hsub : rest ⊆ cut.broken) (hnodup : (rest.map (·.2)).Nodup)
    (h : Mends f cut (Heads cut rest) (fun c => excused c ∨ c ∈ s.bereft) s.tree s.index) :
    (∃ s', mendAll f s rest = .ok s' ∧
      Mends f cut (· = 0) (fun c => excused c ∨ c ∈ s'.bereft) s'.tree s'.index) ∨
    ∃ b ∈ rest, mendAll f s rest = .error (.noLivePath b.2 b.1) ∧ ¬ f.Joined rootChip b.2 := by
  induction rest generalizing s with
  | nil => exact .inl ⟨s, rfl, h.congr (by simp [Heads]) fun _ => id⟩
  | cons b rest ih =>
      have hb := hsub (List.mem_cons_self ..)
      rcases mend_spec hcut hroot hb hnodup h with ⟨mid, hmid, hmends⟩ | ⟨herror, hno⟩
      · rw [mendAll, hmid]
        rcases ih (List.subset_of_cons_subset hsub) (List.nodup_cons.1 hnodup).2 hmends with
          hdone | ⟨b', hb', herror, hno⟩
        · exact .inl hdone
        · exact .inr ⟨b', List.mem_cons_of_mem _ hb', herror, hno⟩
      · rw [mendAll, herror]
        exact .inr ⟨b, List.mem_cons_self .., rfl, hno⟩

end Mend

end Multicast.Reconnect
