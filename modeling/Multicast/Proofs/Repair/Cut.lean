import Multicast.Proofs.Repair.Copy

/-!
# `Multicast.Proofs.Repair.Cut`: copying a tree without what is dead

One edge copied keeps `Copies` (`copyEdge_ok`), hence so do all edges of a job, a
level and a run. A run ends: every level finds new nodes or is the last (`run_spec`).
`Fabric.cut_spec` says that the copy of a proper tree with a working root is as
`CutTree.Covers` describes it, unless an endpoint hangs off a dead chip.
-/

set_option autoImplicit false

namespace Multicast.Cut

/-! ### Edges, levels, runs -/

/-- From one state to another the copy found the nodes of the jobs it added. -/
def Grown (f : Fabric) (t : RouteTree) (s : State) (active : List Job) (found : List NodeId)
    (s' : State) (left' : NodeId → List Edge) : Prop :=
  ∃ new, s'.jobs = new ++ s.jobs ∧
    Copies f t s' (new ++ active) left' (new.map (·.node) ++ found)

/-- Why a copy may end: an endpoint hangs off a node on a dead chip. -/
def Stranded (f : Fabric) (t : RouteTree) (rootChip : Chip) (error : RouteError) : Prop :=
  ∃ n c, t.Below t.root n ∧ t.chip? n = some c ∧ f.isChip c = false ∧ t.endings n ≠ [] ∧
    error = .noLivePath rootChip c

section Run

variable {f : Fabric} {t : RouteTree} {s s' : State} {active : List Job}
  {left : NodeId → List Edge} {found : List NodeId} {j : Job} {e : Edge} {edges post : List Edge}
  {rootChip : Chip} {error : RouteError}

/-- One edge, copied. There is one lemma of `Copies` for each of the three ways it may go. -/
theorem copyEdge_ok (ht : t.IsProper) (h : Copies f t s active left found) (hj : j ∈ active)
    (hleft : left j.node = e :: post) (hs : copyEdge f t rootChip j s e = .ok s') :
    Grown f t s active found s' (Function.update left j.node post) := by
  obtain ⟨route, child⟩ := e
  cases child with
  | terminal x =>
      simp only [copyEdge] at hs
      split at hs
      · next hlive =>
        obtain rfl := Except.ok.inj hs
        exact ⟨[], rfl, h.terminal hj hleft ht rfl hlive⟩
      · contradiction
  | node k =>
      simp only [copyEdge] at hs
      split at hs
      · contradiction
      · next c hc =>
        split at hs
        · next hdead =>
          obtain rfl := Except.ok.inj hs
          exact ⟨[_], rfl, h.skip hj hleft ht rfl hc (by simpa using hdead)⟩
        · next hlive =>
          split at hs
          · contradiction
          · next hcontains =>
            obtain rfl := Except.ok.inj hs
            have hindex : s.index[c]? = none :=
              Std.ExtTreeMap.getElem?_eq_none fun hm =>
                hcontains (Std.ExtTreeMap.contains_iff_mem.2 hm)
            exact ⟨[_], copyNode_jobs .., h.copyNode hj hleft ht rfl hc (by simpa using hlive)
              hindex⟩

/-- An edge is not copied only if it leads to an endpoint on a dead chip. An edge to a node never
fails: in a proper tree the node is on a chip of its own, so a chip met twice would be a node found
twice. -/
theorem copyEdge_error (ht : t.IsProper) (h : Copies f t s active left found) (hj : j ∈ active)
    (hleft : left j.node = e :: post) (hs : copyEdge f t rootChip j s e = .error error) :
    Stranded f t rootChip error := by
  have hbelow := h.cover.below _ (h.cover.active_mem j hj)
  obtain ⟨route, child⟩ := e
  cases child with
  | terminal x =>
      simp only [copyEdge] at hs
      split at hs
      · contradiction
      · next hdead =>
        refine ⟨j.node, j.chip, hbelow, (h.job j hj).1, by simpa using hdead, ?_,
          (Except.error.inj hs).symm⟩
        have hmem : (route, x) ∈ t.endings j.node := RouteTree.mem_endings.2
          ((h.cover.suffix j.node).subset (by simp [hleft]))
        exact List.ne_nil_of_mem hmem
  | node k =>
      have hk : k ∉ found := h.cover.not_mem_found hj hleft rfl
      have hkb : t.Below t.root k := h.cover.kid_below hj hleft rfl
      simp only [copyEdge] at hs
      split at hs
      · next hnone =>
        obtain ⟨c, hc⟩ := RouteTree.exists_chip?_iff.2 (ht.lt_size hkb)
        simp [hc] at hnone
      · next c hc =>
        split at hs
        · contradiction
        · split at hs
          · -- The node on the chip was found; there is no other one on it.
            next hcontains =>
            obtain ⟨m, hm⟩ := Option.isSome_iff_exists.1
              (Std.ExtTreeMap.isSome_getElem?_eq_contains.trans hcontains)
            obtain ⟨-, n, hn, hnc⟩ := h.copied.1 ⟨m, hm⟩
            exact absurd (ht.eq_of_chip? (h.cover.below n hn) hkb (hnc.trans hc.symm) ▸ hn) hk
          · contradiction

/-- All edges of a job, copied. By induction on the edges, each of which leaves the rest of them to
be copied. -/
theorem copyEdges_ok (ht : t.IsProper) (h : Copies f t s active left found) (hj : j ∈ active)
    (hleft : left j.node = edges) (hs : copyEdges f t rootChip j s edges = .ok s') :
    Grown f t s active found s' (Function.update left j.node []) := by
  induction edges generalizing s active left found with
  | nil =>
      obtain rfl := Except.ok.inj hs
      rw [← hleft, Function.update_eq_self]
      exact ⟨[], rfl, h⟩
  | cons e post ih =>
      rw [copyEdges] at hs
      split at hs
      · contradiction
      · next mid hmid =>
        obtain ⟨new, hjobs, hcopies⟩ := copyEdge_ok ht h hj hleft hmid
        obtain ⟨new', hjobs', hcopies'⟩ :=
          ih hcopies (List.mem_append_right _ hj) (Function.update_self ..) hs
        rw [Function.update_idem] at hcopies'
        exact ⟨new' ++ new, by simp [hjobs', hjobs], by simpa using hcopies'⟩

/-- A copy of edges that fails has met a stranded endpoint, at the first edge that fails. -/
theorem copyEdges_error (ht : t.IsProper) (h : Copies f t s active left found) (hj : j ∈ active)
    (hleft : left j.node = edges) (hs : copyEdges f t rootChip j s edges = .error error) :
    Stranded f t rootChip error := by
  induction edges generalizing s active left found with
  | nil => contradiction
  | cons e post ih =>
      rw [copyEdges] at hs
      split at hs
      · next hmid =>
        obtain rfl := Except.error.inj hs
        exact copyEdge_error ht h hj hleft hmid
      · next mid hmid =>
        obtain ⟨new, -, hcopies⟩ := copyEdge_ok ht h hj hleft hmid
        exact ih hcopies (List.mem_append_right _ hj) (Function.update_self ..) hs

/-- The copy while the jobs of a level are done: no edge of a job to come has been copied. -/
def AtLevel (f : Fabric) (t : RouteTree) (s : State) (level : List Job) (found : List NodeId) :
    Prop :=
  ∃ left, Copies f t s (s.jobs ++ level) left found ∧
    ∀ i ∈ s.jobs ++ level, left i.node = t.edges i.node

/-- A job done is off the level. What it found are the nodes of the jobs it added, so both grow by
as many. -/
theorem AtLevel.next {level : List Job} (h : Copies f t s (s.jobs ++ j :: level) left found)
    (hedges : ∀ i ∈ s.jobs ++ j :: level, left i.node = t.edges i.node)
    (hs : Grown f t s (s.jobs ++ j :: level) found s' (Function.update left j.node [])) :
    ∃ found', AtLevel f t s' level found' ∧
      found'.length + s.jobs.length = found.length + s'.jobs.length := by
  obtain ⟨new, hjobs, hcopies⟩ := hs
  have hperm : (j :: (s'.jobs ++ level)).Perm (new ++ (s.jobs ++ j :: level)) := by
    rw [hjobs, ← List.append_assoc new]
    exact List.perm_middle.symm
  have hcopies := hcopies.perm hperm
  refine ⟨_, ⟨_, hcopies.finish (Function.update_self ..), fun i hi => ?_⟩, ?_⟩
  · -- A job to come is a new one, whose node was not found before, or one that waited before.
    have hij : i.node ≠ j.node := fun heq =>
      (List.nodup_cons.1 hcopies.cover.active_nodup).1 (List.mem_map.2 ⟨i, hi, heq⟩)
    rw [Function.update_of_ne hij]
    rw [hjobs, List.append_assoc] at hi
    rcases List.mem_append.1 hi with hi | hi
    · refine h.cover.unfound _ fun hf => ?_
      have := List.nodup_append.1 hcopies.cover.nodup
      exact this.2.2 _ (List.mem_map_of_mem hi) _ hf rfl
    · refine hedges i ?_
      rcases List.mem_append.1 hi with hi | hi
      · exact List.mem_append_left _ hi
      · exact List.mem_append_right _ (List.mem_cons_of_mem _ hi)
  · rw [hjobs, List.length_append, List.length_append, List.length_map]
    omega

/-- The step lemma over the jobs of a level. The nodes found grow by as many as the jobs of the next
level. -/
theorem copyLevel_ok (ht : t.IsProper) {level : List Job} (h : AtLevel f t s level found)
    (hs : copyLevel f t rootChip s level = .ok s') :
    ∃ found', AtLevel f t s' [] found' ∧
      found'.length + s.jobs.length = found.length + s'.jobs.length := by
  induction level generalizing s found with
  | nil =>
      obtain rfl := Except.ok.inj hs
      exact ⟨found, h, rfl⟩
  | cons j level ih =>
      obtain ⟨left, hcopies, hedges⟩ := h
      have hj : j ∈ s.jobs ++ j :: level := List.mem_append_right _ (List.mem_cons_self ..)
      rw [copyLevel] at hs
      split at hs
      · contradiction
      · next mid hmid =>
        obtain ⟨found', hmid, hlen⟩ :=
          AtLevel.next hcopies hedges (copyEdges_ok ht hcopies hj (hedges j hj) hmid)
        obtain ⟨found'', hend, hlen'⟩ := ih hmid hs
        exact ⟨found'', hend, by omega⟩

/-- A level that fails has met a stranded endpoint too. The jobs before the one that fails keep the
invariant, so its edges are those of its node. -/
theorem copyLevel_error (ht : t.IsProper) {level : List Job} (h : AtLevel f t s level found)
    (hs : copyLevel f t rootChip s level = .error error) : Stranded f t rootChip error := by
  induction level generalizing s found with
  | nil => contradiction
  | cons j level ih =>
      obtain ⟨left, hcopies, hedges⟩ := h
      have hj : j ∈ s.jobs ++ j :: level := List.mem_append_right _ (List.mem_cons_self ..)
      rw [copyLevel] at hs
      split at hs
      · next hmid =>
        obtain rfl := Except.error.inj hs
        exact copyEdges_error ht hcopies hj (hedges j hj) hmid
      · next mid hmid =>
        obtain ⟨_, hmid, -⟩ :=
          AtLevel.next hcopies hedges (copyEdges_ok ht hcopies hj (hedges j hj) hmid)
        exact ih hmid hs

end Run

end Multicast.Cut

namespace Multicast

/-- What a finished copy has of the tree: it is in pieces headed by the root and the chips cut off,
its chips are the working ones reached, and what hangs off a chip is what hung off it before. Every
node reached was copied or is among the dead, and a tree that works was copied whole. -/
structure CutTree.Covers (f : Fabric) (t : RouteTree) (cut : CutTree) : Prop where
  pieces : Pieces f cut.tree cut.index
  root : cut.tree.root = 0
  root_chip : cut.tree.chip? 0 = t.chip? t.root
  top : ∀ {n}, cut.tree.IsTop n ↔ n = 0 ∨ ∃ b ∈ cut.broken, cut.index[b.2]? = some n
  broken_nodup : (cut.broken.map (·.2)).Nodup
  broken_copied : ∀ b ∈ cut.broken, ∃ n, n ≠ 0 ∧ cut.index[b.2]? = some n
  copied : ∀ {c}, (∃ m, cut.index[c]? = some m) ↔
    f.isChip c = true ∧ ∃ n, t.Below t.root n ∧ t.chip? n = some c
  endings : ∀ {n c m}, t.Below t.root n → t.chip? n = some c → cut.index[c]? = some m →
    cut.tree.endings m = t.endings n
  endings_dead : ∀ {n c}, t.Below t.root n → t.chip? n = some c → f.isChip c = false →
    t.endings n = []
  excused : t.NoDeadEnd → ∀ {m c}, cut.tree.isLeaf m = true → cut.tree.chip? m = some c →
    m = 0 ∨ c ∈ cut.broken.map (·.1)
  counted : cut.index.size + cut.dead.length = t.reachedCount
  broken_of_works : t.WorksOn f → cut.broken = []
  dead_of_works : t.WorksOn f → cut.dead = []
  exits_of_works : t.WorksOn f → ∀ {n c m}, t.Below t.root n → t.chip? n = some c →
    cut.index[c]? = some m → cut.tree.exits m = t.exits n

namespace Cut

variable {f : Fabric} {t : RouteTree} {s : State} {left : NodeId → List Edge}
  {found : List NodeId} {rootChip : Chip}

/-- A copy without jobs left is finished. What is still to be copied of a node found is nothing
then, and what has been found is what can be reached. -/
theorem Copies.covers (ht : t.IsProper) (h : Copies f t s [] left found) :
    CutTree.Covers f t s.copied := by
  have hfound : ∀ {n}, n ∈ found ↔ t.Below t.root n := h.cover.mem_found_iff
  have hidle : ∀ {n}, t.Below t.root n → left n = [] := fun hn =>
    h.cover.idle _ (hfound.2 hn) (by simp)
  have hmem : ∀ {b}, b ∈ s.copied.broken ↔ b ∈ s.broken := List.mem_reverse
  refine ⟨h.pieces, h.root, h.root_chip, ?_, ?_, ?_, ?_, ?_, ?_, ?_, ?_, ?_, ?_, ?_⟩
  · intro n
    simp only [hmem]
    exact h.top
  · show ((s.broken.reverse).map (·.2)).Nodup
    rw [List.map_reverse]
    exact List.nodup_reverse.2 h.broken_nodup
  · exact fun b hb => h.broken_copied b (hmem.1 hb)
  · intro c
    simp only [← hfound]
    exact h.copied
  · intro n c m hn hc hm
    have := h.endings (hfound.2 hn) hc hm
    rwa [hidle hn, List.filterMap_nil, List.append_nil] at this
  · intro n c hn hc hd
    rw [← h.endings_dead (hfound.2 hn) hc hd, hidle hn, List.filterMap_nil]
  · intro hends m c hm hc
    refine (h.excused hends hm hc).imp_right fun h' => ?_
    simpa [State.copied] using h'
  · -- What has been found is what the walk from the root meets.
    have hperm : found.Perm t.reached :=
      (List.perm_ext_iff_of_nodup h.cover.nodup ht.nodup_reached).2 fun n =>
        hfound.trans ht.mem_reached.symm
    rw [RouteTree.reachedCount, ← hperm.length_eq, ← h.counted]
    exact congrArg (s.index.size + ·) List.length_reverse
  · intro hw
    exact congrArg List.reverse (h.whole hw).broken
  · intro hw
    exact congrArg List.reverse (h.whole hw).dead
  · intro hw n c m hn hc hm
    have := (h.whole hw).exits (hfound.2 hn) hc hm
    rwa [hidle hn, List.map_nil, List.append_nil] at this

/-- Before the first level the root is found and nothing else. -/
theorem atLevel_initial (ht : t.IsProper) (hroot : t.chip? t.root = some rootChip)
    (hlive : f.isChip rootChip = true) : AtLevel f t (initial t rootChip) [] [t.root] := by
  refine ⟨t.edges, ?_, fun _ _ => rfl⟩
  rw [List.append_nil]
  exact .initial ht hroot hlive

/-- The jobs of the next level become the level. -/
theorem AtLevel.turn (h : AtLevel f t s [] found) :
    AtLevel f t { s with jobs := [] } s.jobs.reverse found := by
  obtain ⟨left, hcopies, hedges⟩ := h
  rw [List.append_nil] at hcopies hedges
  refine ⟨left, (hcopies.perm (List.reverse_perm _)).with_jobs [], fun i hi => hedges i ?_⟩
  exact List.mem_reverse.1 hi

/-- No more nodes are found than the row has, which bounds the levels. -/
theorem AtLevel.length_le (ht : t.IsProper) (h : AtLevel f t s [] found) :
    found.length ≤ t.size := by
  obtain ⟨left, hcopies, -⟩ := h
  have hsub : found ⊆ List.range t.size := fun n hn =>
    List.mem_range.2 (ht.lt_size (hcopies.cover.below n hn))
  simpa using (hcopies.cover.nodup.subperm hsub).length_le

/-- A copy without jobs is done, with any number of levels left. -/
theorem run_nil (hjobs : s.jobs = []) (levels : Nat) :
    run f t rootChip levels s = some (.ok s.copied) := by
  cases levels <;> simp [run, hjobs]

/-- A copy with jobs takes one level to do them. -/
theorem run_succ (hjobs : s.jobs ≠ []) (levels : Nat) :
    run f t rootChip (levels + 1) s =
      match copyLevel f t rootChip { s with jobs := [] } s.jobs.reverse with
      | .error error => some (.error error)
      | .ok next => run f t rootChip levels next := by
  obtain ⟨tree, index, broken, dead, jobs⟩ := s
  cases jobs with
  | nil => contradiction
  | cons j jobs => rfl

/-- A run has enough levels when they and the nodes found make up for the nodes to be found. -/
theorem run_spec (rootChip : Chip) (ht : t.IsProper) {levels : Nat} (h : AtLevel f t s [] found)
    (henough : t.size + s.jobs.length ≤ levels + found.length) :
    (∃ cut, run f t rootChip levels s = some (.ok cut) ∧ cut.Covers f t) ∨
      ∃ error, run f t rootChip levels s = some (.error error) ∧ Stranded f t rootChip error := by
  -- A state without jobs is finished, however many levels are left.
  have hdone : ∀ {s : State} {found levels}, AtLevel f t s [] found → s.jobs = [] →
      ∃ cut, run f t rootChip levels s = some (.ok cut) ∧ cut.Covers f t := by
    rintro s found levels ⟨left, hcopies, -⟩ hjobs
    rw [hjobs] at hcopies
    exact ⟨s.copied, run_nil hjobs levels, hcopies.covers ht⟩
  induction levels generalizing s found with
  | zero =>
      -- Every node has been found, so there is no job for another.
      refine .inl (hdone h (List.length_eq_zero_iff.1 ?_))
      have := h.length_le ht
      omega
  | succ levels ih =>
      by_cases hjobs : s.jobs = []
      · exact .inl (hdone h hjobs)
      · rw [run_succ hjobs]
        have hpos := List.length_pos_iff.2 hjobs
        cases hlevel : copyLevel f t rootChip { s with jobs := [] } s.jobs.reverse with
        | error error => exact .inr ⟨error, rfl, copyLevel_error ht h.turn hlevel⟩
        | ok next =>
            -- A level with jobs finds as many nodes as it leaves jobs, so the levels still suffice.
            obtain ⟨found', hnext, hlen⟩ := copyLevel_ok ht h.turn hlevel
            have hlen : found'.length = found.length + next.jobs.length := hlen
            exact ih hnext (by omega)

end Cut

open Cut in
/-- The copy of a proper tree is what it should be, or there is a reason that there is none. -/
theorem Fabric.cut_spec {f : Fabric} {t : RouteTree} (ht : t.IsProper) {rootChip : Chip}
    (hroot : t.chip? t.root = some rootChip) (hlive : f.isChip rootChip = true) :
    (∃ cut, f.cut t = .ok cut ∧ cut.Covers f t) ∨
      ∃ error, f.cut t = .error error ∧ Stranded f t rootChip error := by
  have henough : t.size + (initial t rootChip).jobs.length ≤ enough t + [t.root].length := by
    simp only [enough, initial, List.length_singleton]
    omega
  rw [Fabric.cut, hroot]
  simp only [hlive, if_true]
  rcases run_spec rootChip ht (atLevel_initial ht hroot hlive) henough with
    ⟨cut, hrun, hcut⟩ | ⟨error, hrun, herror⟩
  · exact .inl ⟨cut, by rw [hrun], hcut⟩
  · exact .inr ⟨error, by rw [hrun], herror⟩

end Multicast
