import Multicast.Proofs.Repair.Cut
import Multicast.Proofs.Tree.Chains

/-!
# `Multicast.Proofs.Repair.Levels`: copying any row level by level

A row of nodes need not be a tree. A copy of it goes through `RouteTree.level`: the ends
of the chains of a number of edges from the root, a node once for each chain that leads
to it. A level is copied if no endpoint hangs off a dead chip there (`Quiet`) and the
working chips on the next level are new (`Fresh`). Nothing else can stop it: `Ends` lists
what copying may come to, and holds of an edge, of the edges of a job and of a level
(`copyEdge_ends`, `copyEdges_ends`, `copyLevel_ends`).

So levels run out exactly when there is a node on the last of them, the working chips met
are distinct and every dead one is quiet (`run_eq_none_iff`).
-/

set_option autoImplicit false

namespace Multicast

/-- The working chips among those of some nodes, one for each node on one. -/
def Fabric.working (f : Fabric) (t : RouteTree) (nodes : List NodeId) : List Chip :=
  nodes.filterMap fun n => (t.chip? n).filter f.isChip

/-- No endpoint hangs off those of some nodes that are on dead chips. -/
def Fabric.Quiet (f : Fabric) (t : RouteTree) (nodes : List NodeId) : Prop :=
  ∀ n ∈ nodes, ∀ c, t.chip? n = some c → f.isChip c = false → t.endings n = []

namespace Cut

variable {f : Fabric} {t : RouteTree} {rootChip : Chip} {s s' : State} {a b nodes : List NodeId}
  {p q : Prop} {job : Job} {e : Edge} {k : Nat}

/-- The working chips of two rows of nodes, one row after the other. -/
theorem working_append : f.working t (a ++ b) = f.working t a ++ f.working t b :=
  List.filterMap_append ..

/-- A chip put into an index is in it, with those that were. -/
theorem contains_insert {index : ChipMap} {c d : Chip} {n : NodeId} :
    (index.insert c n).contains d = true ↔ d = c ∨ index.contains d = true := by
  rw [Std.ExtTreeMap.contains_insert, Bool.or_eq_true, beq_iff_eq,
    Std.LawfulEqOrd.compare_eq_iff_eq, @eq_comm _ c]

/-- One node has one working chip or none. -/
theorem working_single {n : NodeId} {c : Chip} (hc : t.chip? n = some c) :
    f.working t [n] = if f.isChip c then [c] else [] := by
  have hfilter : (t.chip? n).filter f.isChip = if f.isChip c then some c else none := by
    rw [hc, Option.filter_some]
  rw [Fabric.working, List.filterMap_cons, hfilter]
  cases f.isChip c <;> rfl

/-- A state comes from another by finding some nodes: it has jobs for them, the latest first, ahead
of the jobs it had, and their working chips are in its index. -/
structure Finds (f : Fabric) (t : RouteTree) (s : State) (nodes : List NodeId) (s' : State) :
    Prop where
  jobs : ∃ new, s'.jobs = new ++ s.jobs ∧ new.map (·.node) = nodes.reverse ∧
    ∀ j ∈ new, t.chip? j.node = some j.chip
  index : ∀ c, s'.index.contains c = true ↔ s.index.contains c = true ∨ c ∈ f.working t nodes

/-- The working chips of some nodes are all different and not in the index. -/
def Fresh (f : Fabric) (t : RouteTree) (s : State) (nodes : List NodeId) : Prop :=
  (f.working t nodes).Nodup ∧ ∀ c ∈ f.working t nodes, ¬ s.index.contains c = true

/-- To do nothing finds no node. -/
theorem Finds.refl (s : State) : Finds f t s [] s where
  jobs := ⟨[], rfl, rfl, by simp⟩
  index c := by simp [Fabric.working]

/-- What two parts of a copy find, they find together, the later in front. -/
theorem Finds.trans {s'' : State} (h : Finds f t s a s') (h' : Finds f t s' b s'') :
    Finds f t s (a ++ b) s'' where
  jobs := by
    obtain ⟨new, hjobs, hnodes, hchips⟩ := h.jobs
    obtain ⟨new', hjobs', hnodes', hchips'⟩ := h'.jobs
    refine ⟨new' ++ new, by rw [hjobs', hjobs, List.append_assoc], by simp [hnodes, hnodes'], ?_⟩
    exact List.forall_mem_append.2 ⟨hchips', hchips⟩
  index c := by rw [h'.index, h.index, working_append, List.mem_append, or_assoc]

/-- Nodes found after others are fresh when all of them are. -/
theorem Finds.fresh_append (h : Finds f t s a s') :
    Fresh f t s (a ++ b) ↔ Fresh f t s a ∧ Fresh f t s' b := by
  simp only [Fresh, working_append, List.nodup_append, List.mem_append, h.index]
  constructor
  · rintro ⟨⟨ha, hb, hdiff⟩, hnew⟩
    refine ⟨⟨ha, fun c hc => hnew c (.inl hc)⟩, hb, fun c hc hold => ?_⟩
    rcases hold with hold | hold
    · exact hnew c (.inr hc) hold
    · exact hdiff c hold c hc rfl
  · rintro ⟨⟨ha, hnew⟩, hb, hnew'⟩
    refine ⟨⟨ha, hb, fun c hc d hd hcd => hnew' d hd (.inr (hcd ▸ hc))⟩, fun c hc => ?_⟩
    rcases hc with hc | hc
    · exact hnew c hc
    · exact fun hold => hnew' c hc (.inl hold)

/-- What copying may come to that is to find some nodes, where `loud` says that an endpoint hangs
off a dead chip on the way. -/
inductive Ends (f : Fabric) (t : RouteTree) (rootChip : Chip) (s : State) (nodes : List NodeId)
    (loud : Prop) : Except RouteError State → Prop
  | found {s' : State} (hfinds : Finds f t s nodes s') (hfresh : Fresh f t s nodes)
      (hquiet : ¬ loud) : Ends f t rootChip s nodes loud (.ok s')
  | stranded (c : Chip) (hloud : loud) :
      Ends f t rootChip s nodes loud (.error (.noLivePath rootChip c))
  | revisited (c : Chip) (hold : ¬ Fresh f t s nodes) :
      Ends f t rootChip s nodes loud (.error (.revisited c))

/-- What two parts come to, one after the other. -/
theorem Ends.andThen {first : Except RouteError State}
    {second : State → Except RouteError State} : Ends f t rootChip s a p first →
    (∀ s', Ends f t rootChip s' b q (second s')) →
    Ends f t rootChip s (a ++ b) (p ∨ q) (match first with
      | .error error => .error error
      | .ok next => second next) := by
  intro h h'
  cases h with
  | stranded c hloud => exact .stranded c (.inl hloud)
  | @found s' hfinds hfresh hquiet =>
      -- The first part found its nodes, so all depends on the second.
      show Ends f t rootChip s (a ++ b) (p ∨ q) (second s')
      generalize second s' = r, h' s' = hsecond
      cases hsecond with
      | found hfinds' hfresh' hquiet' =>
          exact .found (hfinds.trans hfinds') (hfinds.fresh_append.2 ⟨hfresh, hfresh'⟩)
            (not_or.2 ⟨hquiet, hquiet'⟩)
      | stranded c hloud => exact .stranded c (.inr hloud)
      | revisited c hold => exact .revisited c fun hall => hold (hfinds.fresh_append.1 hall).2
  | revisited c hold =>
      refine .revisited c fun hall => hold ?_
      rw [Fresh, working_append] at hall
      exact ⟨hall.1.of_append_left, fun d hd => hall.2 d (List.mem_append_left _ hd)⟩

/-- One edge. -/
theorem copyEdge_ends (hrow : ∀ n, e.kid? = some n → n < t.size) :
    Ends f t rootChip s e.kid?.toList (f.isChip job.chip = false ∧ e.ending? ≠ none)
      (copyEdge f t rootChip job s e) := by
  obtain ⟨route, child⟩ := e
  cases child with
  | terminal x =>
      simp only [copyEdge]
      split
      · next hlive =>
        refine .found ⟨⟨[], rfl, rfl, by simp⟩, by simp [Fabric.working, Edge.kid?]⟩
          (by simp [Fresh, Fabric.working, Edge.kid?]) ?_
        simp [hlive]
      · next hdead => exact .stranded _ ⟨by simpa using hdead, by simp [Edge.ending?]⟩
  | node n =>
      obtain ⟨c, hc⟩ := RouteTree.exists_chip?_iff.2 (hrow n rfl)
      have hquiet : ¬ (f.isChip job.chip = false ∧ Edge.ending? ⟨route, .node n⟩ ≠ none) :=
        fun h => h.2 rfl
      simp only [copyEdge, hc]
      split
      · next hdead =>
        have hnone : f.working t [n] = [] := by simpa [working_single hc] using hdead
        refine .found ⟨⟨[_], rfl, rfl, by simpa using hc⟩, fun c => ?_⟩ ?_ hquiet
        · simp [Edge.kid?, hnone, skip]
        · simp [Fresh, Edge.kid?, hnone]
      · next hlive =>
        have hone : f.working t [n] = [c] := by simpa [working_single hc] using hlive
        split
        · next hold =>
          exact .revisited c fun hfresh => hfresh.2 c (by simp [Edge.kid?, hone]) hold
        · next hnew =>
          refine .found ⟨⟨[_], copyNode_jobs .., rfl, by simpa using hc⟩, fun d => ?_⟩ ?_ hquiet
          · rw [copyNode_index, contains_insert, or_comm]
            show _ ↔ _ ∨ d ∈ f.working t [n]
            rw [hone, List.mem_singleton]
          · simpa [Fresh, Edge.kid?, hone] using hnew

/-- All edges of a job. -/
theorem copyEdges_ends {edges : List Edge} (hrow : ∀ n ∈ edges.filterMap Edge.kid?, n < t.size) :
    Ends f t rootChip s (edges.filterMap Edge.kid?)
      (f.isChip job.chip = false ∧ edges.filterMap Edge.ending? ≠ [])
      (copyEdges f t rootChip job s edges) := by
  induction edges generalizing s with
  | nil => exact .found (.refl s) (by simp [Fresh, Fabric.working]) (by simp)
  | cons e post ih =>
      have hsplit : (e :: post).filterMap Edge.kid? =
          e.kid?.toList ++ post.filterMap Edge.kid? := by
        cases h : e.kid? <;> simp [h]
      rw [hsplit] at hrow ⊢
      have hloud : (f.isChip job.chip = false ∧ (e :: post).filterMap Edge.ending? ≠ []) ↔
          (f.isChip job.chip = false ∧ e.ending? ≠ none) ∨
            f.isChip job.chip = false ∧ post.filterMap Edge.ending? ≠ [] := by
        rw [← and_or_left]
        cases h : e.ending? <;> simp [h]
      rw [hloud]
      have hfirst : ∀ n, e.kid? = some n → n < t.size := fun n hn => hrow n (by simp [hn])
      exact (copyEdge_ends hfirst).andThen fun s' =>
        ih fun n hn => hrow n (List.mem_append_right _ hn)

/-- All jobs of a level. -/
theorem copyLevel_ends (hrow : ∀ p, ∀ n ∈ t.kids p, n < t.size) {jobs : List Job}
    (hchips : ∀ j ∈ jobs, t.chip? j.node = some j.chip) :
    Ends f t rootChip s ((jobs.map (·.node)).flatMap t.kids) (¬ f.Quiet t (jobs.map (·.node)))
      (copyLevel f t rootChip s jobs) := by
  induction jobs generalizing s with
  | nil => exact .found (.refl s) (by simp [Fresh, Fabric.working]) (by simp [Fabric.Quiet])
  | cons job jobs ih =>
      obtain ⟨hchip, hchips⟩ := List.forall_mem_cons.1 hchips
      have hloud : ¬ f.Quiet t ((job :: jobs).map (·.node)) ↔
          (f.isChip job.chip = false ∧ t.endings job.node ≠ []) ∨
            ¬ f.Quiet t (jobs.map (·.node)) := by
        simp only [Fabric.Quiet, List.map_cons, List.forall_mem_cons, hchip, Option.some.injEq,
          forall_eq', not_and_or, Classical.not_imp, ne_eq]
      rw [hloud, List.map_cons, List.flatMap_cons]
      exact (copyEdges_ends fun n hn => hrow _ n hn).andThen fun s' => ih hchips

/-- A copy before a level: its jobs are for the nodes of the level, and its index holds the working
chips met so far, those of the level among them. -/
structure Before (f : Fabric) (t : RouteTree) (k : Nat) (s : State) : Prop where
  jobs : s.jobs.reverse.map (·.node) = t.level k
  chips : ∀ j ∈ s.jobs, t.chip? j.node = some j.chip
  index : ∀ c, s.index.contains c = true ↔ c ∈ f.working t (t.upTo k)
  nodup : (f.working t (t.upTo k)).Nodup

/-- Before the first level there is a job for the root, and its chip is in the index. -/
theorem before_initial (hroot : t.chip? t.root = some rootChip)
    (hlive : f.isChip rootChip = true) : Before f t 0 (initial t rootChip) := by
  have hone : f.working t (t.upTo 0) = [rootChip] := by
    rw [RouteTree.upTo_zero, working_single hroot, if_pos hlive]
  refine ⟨rfl, by simp [initial, hroot], fun c => ?_, by simp [hone]⟩
  rw [hone, initial, contains_insert, List.mem_singleton]
  simp

/-- A level copied leads before the next one, and a level not copied has an endpoint on a dead chip
or leads to a working chip met before. -/
theorem Before.level (rootChip : Chip) (h : Before f t k s)
    (hrow : ∀ p, ∀ n ∈ t.kids p, n < t.size) :
    (∃ s', copyLevel f t rootChip { s with jobs := [] } s.jobs.reverse = .ok s' ∧
      Before f t (k + 1) s' ∧ f.Quiet t (t.level k)) ∨
    ∃ error, copyLevel f t rootChip { s with jobs := [] } s.jobs.reverse = .error error ∧
      ((∃ c, error = .noLivePath rootChip c) ∨ ∃ c, error = .revisited c) ∧
      ¬ (f.Quiet t (t.level k) ∧ (f.working t (t.upTo (k + 1))).Nodup) := by
  have hchips : ∀ j ∈ s.jobs.reverse, t.chip? j.node = some j.chip := fun j hj =>
    h.chips j (List.mem_reverse.1 hj)
  have hends := @copyLevel_ends f t rootChip { s with jobs := [] } hrow _ hchips
  rw [h.jobs] at hends
  -- Seen from the index, the next level is fresh when its working chips and those met before are
  -- all different.
  have hfresh : Fresh f t { s with jobs := [] } ((t.level k).flatMap t.kids) ↔
      (f.working t (t.upTo (k + 1))).Nodup := by
    rw [RouteTree.upTo_succ, RouteTree.level_succ, working_append, List.nodup_append]
    simp only [Fresh, h.index]
    constructor
    · exact fun ⟨hnew, hdiff⟩ => ⟨h.nodup, hnew, fun c hc d hd hcd => hdiff d hd (hcd ▸ hc)⟩
    · exact fun ⟨_, hnew, hdiff⟩ => ⟨hnew, fun c hc hold => hdiff c hold c hc rfl⟩
  generalize copyLevel f t rootChip { s with jobs := [] } s.jobs.reverse = result at hends ⊢
  cases hends with
  | @found s' hfinds hnew hquiet =>
      obtain ⟨new, hjobs, hnodes, hchips⟩ := hfinds.jobs
      obtain rfl : s'.jobs = new := by simpa using hjobs
      refine .inl ⟨s', rfl, ⟨?_, hchips, fun c => ?_, hfresh.1 hnew⟩, not_not.1 hquiet⟩
      · rw [List.map_reverse, hnodes, List.reverse_reverse, RouteTree.level_succ]
      · rw [hfinds.index, RouteTree.upTo_succ, RouteTree.level_succ, working_append,
          List.mem_append, ← h.index]
  | stranded c hloud => exact .inr ⟨_, rfl, .inl ⟨c, rfl⟩, fun hall => hloud hall.1⟩
  | revisited c hold => exact .inr ⟨_, rfl, .inr ⟨c, rfl⟩, fun hall => hold (hfresh.2 hall.2)⟩

/-- A copy with jobs and no levels left has not ended. -/
theorem run_zero (hjobs : s.jobs ≠ []) : run f t rootChip 0 s = none := by
  obtain ⟨tree, index, broken, dead, jobs⟩ := s
  cases jobs with
  | nil => contradiction
  | cons j jobs => rfl

/-- Chips that are different down to a deeper level are so down to a level before it. -/
theorem nodup_of_add {more : Nat} (h : (f.working t (t.upTo (k + more))).Nodup) :
    (f.working t (t.upTo k)).Nodup :=
  h.sublist ((t.upTo_prefix_add k more).sublist.filterMap _)

/-- The levels run out when there is a node on the last of them, all working chips met are
different, and no endpoint hangs off a dead chip on the way. -/
theorem run_eq_none_iff (h : Before f t k s) (hrow : ∀ p, ∀ n ∈ t.kids p, n < t.size)
    (levels : Nat) : run f t rootChip levels s = none ↔
      t.level (k + levels) ≠ [] ∧ (f.working t (t.upTo (k + levels))).Nodup ∧
        ∀ i, k ≤ i → i < k + levels → f.Quiet t (t.level i) := by
  have hempty : s.jobs = [] ↔ t.level k = [] := by simp [← h.jobs]
  induction levels generalizing k s with
  | zero =>
      by_cases hjobs : s.jobs = []
      · simp [run_nil hjobs, hempty.1 hjobs]
      · exact iff_of_true (run_zero hjobs) ⟨mt hempty.2 hjobs, h.nodup, fun i hi hlt => by omega⟩
  | succ levels ih =>
      by_cases hjobs : s.jobs = []
      · simp [run_nil hjobs, RouteTree.level_add_eq_nil (hempty.1 hjobs)]
      · rw [run_succ hjobs, show k + (levels + 1) = k + 1 + levels by omega]
        rcases h.level rootChip hrow with
          ⟨s', hs', hbefore, hquiet⟩ | ⟨error, herror, -, hstop⟩
        · rw [hs']
          refine (ih hbefore (by simp [← hbefore.jobs])).trans
            (and_congr_right fun _ => and_congr_right fun _ => ⟨fun hrest i hi hlt => ?_,
              fun hall i hi hlt => hall i (by omega) hlt⟩)
          rcases Nat.eq_or_lt_of_le hi with rfl | hi
          · exact hquiet
          · exact hrest i hi hlt
        · rw [herror]
          refine iff_of_false (by simp) fun ⟨_, hnodup, hquiet⟩ => hstop ⟨?_, nodup_of_add hnodup⟩
          exact hquiet k (Nat.le_refl k) (by omega)

/-- A copy is stopped by an endpoint on a dead chip or by a working chip met before. -/
theorem error_of_run (h : Before f t k s) (hrow : ∀ p, ∀ n ∈ t.kids p, n < t.size) {levels : Nat}
    {error : RouteError} (hrun : run f t rootChip levels s = some (.error error)) :
    (∃ c, error = .noLivePath rootChip c) ∨ ∃ c, error = .revisited c := by
  induction levels generalizing k s with
  | zero =>
      by_cases hjobs : s.jobs = []
      · simp [run_nil hjobs] at hrun
      · simp [run_zero hjobs] at hrun
  | succ levels ih =>
      by_cases hjobs : s.jobs = []
      · simp [run_nil hjobs] at hrun
      · rw [run_succ hjobs] at hrun
        rcases h.level rootChip hrow with
          ⟨s', hs', hbefore, -⟩ | ⟨error', herror, hkind, -⟩
        · rw [hs'] at hrun
          exact ih hbefore hrun
        · rw [herror] at hrun
          obtain rfl := Except.error.inj (Option.some.inj hrun)
          exact hkind

/-- More levels do not change the outcome. -/
theorem run_add {levels : Nat} {result : Except RouteError CutTree}
    (h : run f t rootChip levels s = some result) (more : Nat) :
    run f t rootChip (levels + more) s = some result := by
  induction levels generalizing s with
  | zero =>
      by_cases hjobs : s.jobs = []
      · rw [run_nil hjobs] at h ⊢
        exact h
      · simp [run_zero hjobs] at h
  | succ levels ih =>
      by_cases hjobs : s.jobs = []
      · rw [run_nil hjobs] at h ⊢
        exact h
      · rw [Nat.add_right_comm, run_succ hjobs]
        rw [run_succ hjobs] at h
        cases hlevel : copyLevel f t rootChip { s with jobs := [] } s.jobs.reverse with
        | error error => rwa [hlevel] at h
        | ok next =>
            rw [hlevel] at h
            exact ih h

end Cut

end Multicast
