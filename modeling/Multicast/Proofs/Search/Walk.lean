import Mathlib.Data.List.Perm.Subperm
import Mathlib.Logic.Relation
import Multicast.Search.Explore

/-!
# `Multicast.Proofs.Search.Walk`: what a walk finds

`Search.walk` keeps a state: nodes taken, nodes pending, nodes seen. `Walk.Sound`
says what every such state satisfies and `Walk.Closed` that the neighbours of the
nodes taken are seen. `find` and `take?` keep the first, a whole round keeps both.

* `walk_ended`: a walk with enough steps either stopped at the node taken last,
  or took exactly the nodes that can be reached from the start. Given more steps it
  does the same (`walk_of_le`).
* `mem_breadthFirst` / `mem_depthFirst`: without a node to stop at, the second
  holds; `nodup_breadthFirst` / `nodup_depthFirst` add that no node comes twice.
* `bestFirst_eq_some` / `bestFirst_eq_none`: a goal found is a goal, its route
  follows edges, meets no node twice and no goal before its end; a walk that finds
  none has met no goal because there is none to reach.

Nothing here depends on the key under which pending nodes are taken.
-/

set_option autoImplicit false

namespace Multicast.Search

variable {α ε : Type}

/-- An edge of the graph that `next` describes. -/
def Adjacent (next : α → List (ε × α)) (a b : α) : Prop :=
  ∃ edge, (edge, b) ∈ next a

/-- A chain of edges leads from one node to another. -/
def Reaches (next : α → List (ε × α)) : α → α → Prop :=
  Relation.ReflTransGen (Adjacent next)

/-- How a node came to be found: it is the start, or an edge leads to it from a node taken
before. -/
def Arrival.Follows (next : α → List (ε × α)) (start : α) (earlier : List (Arrival α ε))
    (a : Arrival α ε) : Prop :=
  match a.via with
  | none => a.node = start
  | some (source, edge) => source ∈ earlier.map (·.node) ∧ (edge, a.node) ∈ next source

/-- Every arrival of a trail, latest first, follows from those behind it. -/
def WellFound (next : α → List (ε × α)) (start : α) : List (Arrival α ε) → Prop
  | [] => True
  | a :: earlier => a.Follows next start earlier ∧ WellFound next start earlier

/-- An arrival that follows from some others follows from more. -/
theorem Arrival.Follows.mono {next : α → List (ε × α)} {start : α}
    {earlier more : List (Arrival α ε)} {a : Arrival α ε} (h : a.Follows next start earlier)
    (hsub : ∀ b ∈ earlier, b ∈ more) : a.Follows next start more := by
  unfold Arrival.Follows at h ⊢
  split
  · next hv => simpa [hv] using h
  · next source edge hv =>
    rw [hv] at h
    obtain ⟨b, hb, hbs⟩ := List.mem_map.1 h.1
    exact ⟨List.mem_map.2 ⟨b, hsub b hb, hbs⟩, h.2⟩

/-- What has been found can be reached. -/
theorem WellFound.reaches {next : α → List (ε × α)} {start : α} {trail : List (Arrival α ε)}
    (h : WellFound next start trail) {b : α} (hb : b ∈ trail.map (·.node)) :
    Reaches next start b := by
  -- Along the trail: what a node follows from stands behind it, where the hypothesis applies.
  induction trail generalizing b with
  | nil => simp at hb
  | cons a earlier ih =>
      obtain ⟨ha, hearlier⟩ := h
      rcases List.mem_cons.1 hb with rfl | hb
      · show Reaches next start a.node
        unfold Arrival.Follows at ha
        split at ha
        · rw [ha]
          exact .refl
        · next source edge _ => exact (ih hearlier ha.1).tail ⟨edge, ha.2⟩
      · exact ih hearlier hb

/-- Wherever it stands in a trail, an arrival follows from what the trail holds. -/
theorem WellFound.follows {next : α → List (ε × α)} {start : α} {trail : List (Arrival α ε)}
    (h : WellFound next start trail) {a : Arrival α ε} (ha : a ∈ trail) :
    a.Follows next start trail := by
  induction trail with
  | nil => simp at ha
  | cons b earlier ih =>
      have hmono := fun (c : Arrival α ε) => List.mem_cons_of_mem b (a := c) (l := earlier)
      rcases List.mem_cons.1 ha with rfl | ha
      · exact h.1.mono hmono
      · exact (ih h.2 ha).mono hmono

/-- An arrival follows from those behind it in a trail. -/
theorem WellFound.follows_of_append {next : α → List (ε × α)} {start : α} {a : Arrival α ε}
    {later earlier : List (Arrival α ε)} (h : WellFound next start (later ++ a :: earlier)) :
    a.Follows next start earlier := by
  induction later with
  | nil => exact h.1
  | cons b later ih => exact ih h.2

/-- What follows from a trail of things found can be reached itself. -/
theorem Arrival.Follows.reaches {next : α → List (ε × α)} {start : α}
    {earlier : List (Arrival α ε)} {a : Arrival α ε} (ha : a.Follows next start earlier)
    (h : WellFound next start earlier) : Reaches next start a.node := by
  have h : WellFound next start (a :: earlier) := ⟨ha, h⟩
  exact h.reaches (List.mem_cons_self ..)

/-! ### The state of a walk -/

section
variable [Ord α] [Std.TransOrd α]

namespace Walk

/-- The nodes taken, latest first. -/
def taken (w : Walk α ε) : List α :=
  w.trail.map (·.node)

/-- A node waits under a rank to be taken. -/
def Awaits (w : Walk α ε) (rank : Rank) (a : Arrival α ε) : Prop :=
  w.pending[rank]? = some a

/-- What holds of every walk from `start`, whatever it has yet to do. -/
structure Sound (next : α → List (ε × α)) (start : α) (w : Walk α ε) : Prop where
  seen_iff : ∀ b, b ∈ w.seen ↔ b ∈ w.taken ∨ ∃ rank a, w.Awaits rank a ∧ a.node = b
  apart : ∀ {rank a}, w.Awaits rank a → a.node ∉ w.taken
  once : ∀ {rank a rank' a'}, w.Awaits rank a → w.Awaits rank' a' → a.node = a'.node → rank = rank'
  place_lt : ∀ {rank a}, w.Awaits rank a → rank.place < w.found
  nodup : w.taken.Nodup
  follows : ∀ {rank a}, w.Awaits rank a → a.Follows next start w.trail
  wellFound : WellFound next start w.trail
  start_seen : start ∈ w.seen

/-- Every neighbour of a node taken has been seen. -/
def Closed (next : α → List (ε × α)) (w : Walk α ε) : Prop :=
  ∀ a ∈ w.taken, ∀ b, Adjacent next a b → b ∈ w.seen

variable {next : α → List (ε × α)} {start : α} {w : Walk α ε}

/-- The node found last waits under a rank of its own, since its place is new. -/
theorem awaits_find {key : α → Nat → Int} {a b : Arrival α ε} {rank : Rank}
    (hplace : ∀ {rank a}, w.Awaits rank a → rank.place < w.found) :
    (w.find key a).Awaits rank b ↔
      (rank = ⟨key a.node w.found, w.found⟩ ∧ a = b) ∨ w.Awaits rank b := by
  simp only [Awaits, find, Std.ExtTreeMap.getElem?_insert, Std.LawfulEqOrd.compare_eq_iff_eq]
  constructor
  · intro h
    split at h
    · next hr => exact .inl ⟨hr.symm, Option.some.inj h⟩
    · exact .inr h
  · rintro (⟨rfl, rfl⟩ | h)
    · simp
    · rw [if_neg ?_, h]
      rintro rfl
      exact Nat.lt_irrefl _ (hplace h)

/-- To find a node takes none. -/
@[simp] theorem taken_find (key : α → Nat → Int) (a : Arrival α ε) :
    (w.find key a).taken = w.taken := rfl

/-- Nothing waits in a walk that has not begun. -/
@[simp] theorem not_awaits_empty (rank : Rank) (a : Arrival α ε) :
    ¬ (empty : Walk α ε).Awaits rank a := by
  simp [Awaits, empty]

/-- To find a neighbour takes no node, whether it had been seen before or not. -/
theorem trail_findNeighbour (key : α → Nat → Int) (source : α) (neighbour : ε × α) :
    (w.findNeighbour key source neighbour).trail = w.trail := by
  unfold findNeighbour
  split <;> rfl

/-- Taking a pending node keeps a walk sound. -/
theorem Sound.take (h : w.Sound next start) {node : α} {w' : Walk α ε}
    (ht : w.take? = some (node, w')) :
    w'.Sound next start ∧ w'.seen = w.seen ∧ w'.taken = node :: w.taken := by
  obtain ⟨rank, a, ha, -, rfl, rfl⟩ := take?_eq_some_iff.1 ht
  -- Afterwards the nodes wait that waited before, but for the one taken.
  have hget : ∀ {r b}, (Walk.mk w.seen (w.pending.erase rank) w.found (a :: w.trail)).Awaits r b ↔
      r ≠ rank ∧ w.Awaits r b := by
    intro r b
    simp only [Awaits, Std.ExtTreeMap.getElem?_erase, Std.LawfulEqOrd.compare_eq_iff_eq]
    split
    · next hr => simp [hr]
    · next hr => simp [Ne.symm hr]
  refine ⟨⟨?_, ?_, ?_, ?_, ?_, ?_, ?_, h.start_seen⟩, rfl, rfl⟩
  · intro b
    show b ∈ w.seen ↔ b ∈ a.node :: w.taken ∨ _
    simp only [h.seen_iff, hget, List.mem_cons]
    constructor
    · rintro (hb | ⟨r, c, hc, rfl⟩)
      · exact .inl (.inr hb)
      · -- A seen node that waited under this rank is the one taken now.
        by_cases hr : r = rank
        · subst hr
          exact .inl (.inl (congrArg Arrival.node (Option.some.inj (hc.symm.trans ha))))
        · exact .inr ⟨r, c, ⟨hr, hc⟩, rfl⟩
    · rintro ((rfl | hb) | ⟨r, c, hc, rfl⟩)
      · exact .inr ⟨rank, a, ha, rfl⟩
      · exact .inl hb
      · exact .inr ⟨r, c, hc.2, rfl⟩
  · intro r c hc
    obtain ⟨hr, hc⟩ := hget.1 hc
    intro hm
    rcases List.mem_cons.1 hm with hn | hm
    · exact hr (h.once hc ha hn)
    · exact h.apart hc hm
  · intro r c r' c' hc hc' hn
    exact h.once (hget.1 hc).2 (hget.1 hc').2 hn
  · exact fun hc => h.place_lt (hget.1 hc).2
  · exact List.nodup_cons.2 ⟨h.apart ha, h.nodup⟩
  · intro r c hc
    exact (h.follows (hget.1 hc).2).mono fun b hb => List.mem_cons_of_mem _ hb
  · exact ⟨h.follows ha, h.wellFound⟩

/-- A walk with nothing pending that has seen the neighbours of all it took has taken whatever can
be reached. -/
theorem Sound.mem_taken_iff (h : w.Sound next start) (hc : w.Closed next)
    (hempty : w.pending = ∅) (b : α) : b ∈ w.taken ↔ Reaches next start b := by
  have hseen : ∀ c, c ∈ w.seen ↔ c ∈ w.taken := by
    intro c
    rw [h.seen_iff]
    simp [Awaits, hempty]
  constructor
  · -- Everything taken was found over edges.
    exact h.wellFound.reaches
  · -- Along the path: its start is seen, a node seen is taken, and so its neighbours are seen.
    intro hr
    induction hr with
    | refl => exact (hseen start).1 h.start_seen
    | tail _ hedge ih => exact (hseen _).1 (hc _ ih _ hedge)

/-- A sound walk that has taken whatever can be reached has nothing pending. -/
theorem Sound.pending_eq_empty (h : w.Sound next start)
    (hall : ∀ b, Reaches next start b → b ∈ w.taken) : w.pending = ∅ := by
  refine Std.ExtTreeMap.ext_getElem? fun rank => ?_
  cases ha : w.pending[rank]? with
  | none => simp
  | some a => exact absurd (hall a.node ((h.follows ha).reaches h.wellFound)) (h.apart ha)

/-- Nor does finding all neighbours of a node. -/
theorem trail_foldl_findNeighbour (key : α → Nat → Int) (source : α) (l : List (ε × α)) :
    (l.foldl (findNeighbour key source) w).trail = w.trail := by
  induction l generalizing w with
  | nil => rfl
  | cons n l ih => rw [List.foldl_cons, ih, trail_findNeighbour]

/-- A walk that has come to its end takes no steps more, however many it is given. -/
theorem explore_add (key : α → Nat → Int) (stop : α → Bool) (more : Nat) :
    ∀ (bound : Nat) {w : Walk α ε}, (∀ a ∈ w.trail.head?, stop a.node = false) →
      ((explore key next stop bound w).pending = ∅ ∨
        ∃ a ∈ (explore key next stop bound w).trail.head?, stop a.node = true) →
      explore key next stop (bound + more) w = explore key next stop bound w := by
  intro bound
  induction bound with
  | zero =>
      intro w hgoing hended
      -- It did not stop, so there is nothing it could take.
      have hempty : w.pending = ∅ := hended.resolve_right fun ⟨a, ha, hs⟩ => by
        rw [hgoing a ha] at hs
        contradiction
      have htake : w.take? = none := by simp [take?, least?_eq_none_iff.2 hempty]
      cases more with
      | zero => rfl
      | succ more =>
          show explore key next stop (0 + (more + 1)) w = w
          rw [Nat.zero_add, explore, htake]
  | succ bound ih =>
      intro w hgoing hended
      rw [Nat.succ_add, explore, explore]
      rw [explore] at hended
      cases ht : w.take? with
      | none => rfl
      | some taken =>
          obtain ⟨node, w'⟩ := taken
          simp only [ht] at hended ⊢
          split
          · rfl
          · next hs =>
            rw [if_neg hs] at hended
            refine ih (fun a ha => ?_) hended
            obtain ⟨rank, b, -, -, rfl, rfl⟩ := take?_eq_some_iff.1 ht
            rw [trail_foldl_findNeighbour] at ha
            obtain rfl : b = a := Option.some.inj ha
            simpa using hs

variable [Std.LawfulEqOrd α]

/-- A node found has been seen from then on. -/
@[simp] theorem mem_seen_find {key : α → Nat → Int} {a : Arrival α ε} {b : α} :
    b ∈ (w.find key a).seen ↔ b = a.node ∨ b ∈ w.seen := by
  simp only [find, Std.ExtTreeSet.mem_insert, Std.LawfulEqOrd.compare_eq_iff_eq]
  rw [@eq_comm _ b]

/-- Finding an unseen node that an edge leads to keeps a walk sound. -/
theorem Sound.find (h : w.Sound next start) (key : α → Nat → Int) {a : Arrival α ε}
    (hnew : a.node ∉ w.seen) (ha : a.Follows next start w.trail) :
    (w.find key a).Sound next start := by
  -- An unseen node is neither taken nor pending, so it clashes with nothing.
  have hfresh : a.node ∉ w.taken ∧ ∀ {rank b}, w.Awaits rank b → b.node ≠ a.node := by
    rw [h.seen_iff] at hnew
    exact ⟨fun ht => hnew (.inl ht), fun hb hn => hnew (.inr ⟨_, _, hb, hn⟩)⟩
  refine ⟨?_, ?_, ?_, ?_, h.nodup, ?_, h.wellFound, ?_⟩
  · intro b
    simp only [mem_seen_find, h.seen_iff, taken_find, awaits_find h.place_lt]
    grind
  · intro rank b hb
    rcases (awaits_find h.place_lt).1 hb with ⟨-, rfl⟩ | hb
    · exact hfresh.1
    · exact h.apart hb
  · intro rank b rank' b' hb hb' hn
    -- Either both nodes waited before, or one of them is the new one and the other is not on it.
    rcases (awaits_find h.place_lt).1 hb with ⟨rfl, rfl⟩ | hb <;>
      rcases (awaits_find h.place_lt).1 hb' with ⟨rfl, rfl⟩ | hb'
    · rfl
    · exact absurd hn.symm (hfresh.2 hb')
    · exact absurd hn (hfresh.2 hb)
    · exact h.once hb hb' hn
  · intro rank b hb
    show rank.place < w.found + 1
    rcases (awaits_find h.place_lt).1 hb with ⟨rfl, -⟩ | hb
    · exact Nat.lt_succ_self _
    · exact Nat.lt_succ_of_lt (h.place_lt hb)
  · intro rank b hb
    rcases (awaits_find h.place_lt).1 hb with ⟨-, rfl⟩ | hb
    · exact ha
    · exact h.follows hb
  · exact mem_seen_find.2 (.inr h.start_seen)

/-- A walk that has only found its start is sound. -/
theorem sound_start (key : α → Nat → Int) :
    ((empty : Walk α ε).find key ⟨start, none⟩).Sound next start := by
  have hplace : ∀ {rank : Rank} {a : Arrival α ε}, (empty : Walk α ε).Awaits rank a →
      rank.place < (empty : Walk α ε).found := fun h => absurd h (not_awaits_empty _ _)
  refine ⟨?_, ?_, ?_, ?_, List.nodup_nil, ?_, trivial, mem_seen_find.2 (.inl rfl)⟩
  · intro b
    simp only [mem_seen_find, awaits_find hplace, not_awaits_empty, or_false]
    simp [taken, find, empty, eq_comm]
  · intro rank a _
    simp [taken, find, empty]
  · intro rank a rank' a' ha ha' _
    simp only [awaits_find hplace, not_awaits_empty, or_false] at ha ha'
    rw [ha.1, ha'.1]
  · intro rank a ha
    simp only [awaits_find hplace, not_awaits_empty, or_false] at ha
    rw [ha.1]
    exact Nat.lt_succ_self _
  · intro rank a ha
    simp only [awaits_find hplace, not_awaits_empty, or_false] at ha
    rw [← ha.2]
    rfl

/-- Going through neighbours of a node taken keeps a walk sound. -/
theorem Sound.findNeighbour (h : w.Sound next start) (key : α → Nat → Int) {source : α}
    {neighbour : ε × α} (hsource : source ∈ w.taken) (hn : neighbour ∈ next source) :
    (w.findNeighbour key source neighbour).Sound next start := by
  unfold Walk.findNeighbour
  split
  · exact h
  · next hnew =>
    rw [Std.ExtTreeSet.contains_iff_mem] at hnew
    exact h.find key hnew ⟨hsource, hn⟩

/-- A neighbour has been seen after its edge is followed, if it had not been before. -/
theorem mem_seen_findNeighbour {key : α → Nat → Int} {source b : α} {neighbour : ε × α} :
    b ∈ (w.findNeighbour key source neighbour).seen ↔ b = neighbour.2 ∨ b ∈ w.seen := by
  unfold findNeighbour
  split
  · next hseen =>
    rw [Std.ExtTreeSet.contains_iff_mem] at hseen
    exact ⟨.inr, fun h => h.elim (fun h => h ▸ hseen) id⟩
  · exact mem_seen_find

/-- The walk after the neighbours of a node: sound as before, with those neighbours seen besides. -/
theorem Sound.foldl_findNeighbour (key : α → Nat → Int) {source : α} (l : List (ε × α)) :
    ∀ {w : Walk α ε}, w.Sound next start → source ∈ w.taken → (∀ n ∈ l, n ∈ next source) →
      (l.foldl (Walk.findNeighbour key source) w).Sound next start ∧
      ∀ b, b ∈ (l.foldl (Walk.findNeighbour key source) w).seen ↔
        b ∈ l.map (·.2) ∨ b ∈ w.seen := by
  induction l with
  | nil => exact fun h _ _ => ⟨h, by simp⟩
  | cons n l ih =>
      intro w h hsource hl
      have hn := h.findNeighbour key hsource (hl n (List.mem_cons_self ..))
      obtain ⟨hsound, hseen⟩ := ih hn (by rwa [taken, trail_findNeighbour])
        fun m hm => hl m (List.mem_cons_of_mem _ hm)
      refine ⟨hsound, fun b => ?_⟩
      rw [List.foldl_cons, hseen, mem_seen_findNeighbour, List.map_cons, List.mem_cons]
      exact or_left_comm.trans or_assoc.symm

/-- How a walk ended: at a node to stop at, or having taken everything, none of it a node to stop
at. -/
def Ended (next : α → List (ε × α)) (stop : α → Bool) (start : α) (w : Walk α ε) : Prop :=
  (∃ last earlier, w.trail = last :: earlier ∧ stop last.node = true ∧
    ∀ a ∈ earlier, stop a.node = false) ∨
  ((∀ a ∈ w.taken, stop a = false) ∧ ∀ b, b ∈ w.taken ↔ Reaches next start b)

/-- One round: a node is taken and its neighbours come into view, which closes the nodes taken with
the new one. -/
theorem Sound.round (h : w.Sound next start) (hc : w.Closed next) (key : α → Nat → Int) {node : α}
    {w' : Walk α ε} (ht : w.take? = some (node, w')) :
    ((next node).foldl (Walk.findNeighbour key node) w').Sound next start ∧
    ((next node).foldl (Walk.findNeighbour key node) w').Closed next ∧
    ((next node).foldl (Walk.findNeighbour key node) w').taken = node :: w.taken := by
  obtain ⟨h', hseen, htaken⟩ := h.take ht
  have hmem : node ∈ w'.taken := by simp [htaken]
  obtain ⟨hsound, hseen'⟩ := Sound.foldl_findNeighbour key (next node) h' hmem fun _ hn => hn
  have htaken' : ((next node).foldl (Walk.findNeighbour key node) w').taken = node :: w.taken := by
    rw [← htaken, taken, trail_foldl_findNeighbour]
    rfl
  refine ⟨hsound, fun a ha b hedge => ?_, htaken'⟩
  rw [htaken'] at ha
  rw [hseen']
  rcases List.mem_cons.1 ha with rfl | ha
  · obtain ⟨edge, he⟩ := hedge
    exact .inl (List.mem_map.2 ⟨_, he, rfl⟩)
  · exact .inr (hseen ▸ hc a ha b hedge)

/-- A sound walk that has met no node to stop at ends when as many steps are left as nodes. `univ`
lists what can be reached. The nodes taken are different ones that can be reached, so there are no
more of them than nodes listed. -/
theorem Sound.explore (key : α → Nat → Int) (stop : α → Bool) {univ : List α}
    (huniv : ∀ b, Reaches next start b → b ∈ univ) :
    ∀ (bound : Nat) {w : Walk α ε}, w.Sound next start → w.Closed next →
      (∀ a ∈ w.taken, stop a = false) → univ.length ≤ bound + w.taken.length →
      (Walk.explore key next stop bound w).Sound next start ∧
      (Walk.explore key next stop bound w).Ended next stop start := by
  -- On the steps left: each round takes one node more and leaves one step less.
  intro bound
  induction bound with
  | zero =>
      intro w h hc hstop hlen
      refine ⟨h, .inr ⟨hstop, h.mem_taken_iff hc ?_⟩⟩
      -- A node still pending would be one more than there are.
      refine Std.ExtTreeMap.ext_getElem? fun rank => ?_
      cases ha : w.pending[rank]? with
      | none => simp
      | some a =>
          exfalso
          have hsub : a.node :: w.taken ⊆ univ := by
            intro b hb
            rcases List.mem_cons.1 hb with rfl | hb
            · exact huniv _ ((h.follows ha).reaches h.wellFound)
            · exact huniv b (h.wellFound.reaches hb)
          have := ((List.nodup_cons.2 ⟨h.apart ha, h.nodup⟩).subperm hsub).length_le
          rw [List.length_cons] at this
          omega
  | succ bound ih =>
      intro w h hc hstop hlen
      unfold Walk.explore
      split
      · next ht =>
        exact ⟨h, .inr ⟨hstop, h.mem_taken_iff hc (pending_eq_empty_of_take? ht)⟩⟩
      · next node w' ht =>
        split
        · next hs =>
          -- The walk stops at the node just taken; none before it was one to stop at.
          refine ⟨(h.take ht).1, .inl ?_⟩
          obtain ⟨rank, a, -, -, rfl, rfl⟩ := take?_eq_some_iff.1 ht
          exact ⟨a, w.trail, rfl, hs, fun b hb => hstop _ (List.mem_map_of_mem hb)⟩
        · next hs =>
          obtain ⟨hsound, hclosed, htaken⟩ := h.round hc key ht
          refine ih hsound hclosed (fun a ha => ?_) ?_
          · rw [htaken] at ha
            rcases List.mem_cons.1 ha with rfl | ha
            · simpa using hs
            · exact hstop a ha
          · rw [htaken, List.length_cons]
            omega

end Walk

variable [Std.LawfulEqOrd α] {next : α → List (ε × α)} {start : α}

/-- A walk that may take as many nodes as can be reached is sound, and it ended. -/
theorem walk_ended (key : α → Nat → Int) (stop : α → Bool) {univ : List α} {bound : Nat}
    (huniv : ∀ b, Reaches next start b → b ∈ univ) (hbound : univ.length ≤ bound) :
    (walk key next stop bound start).Sound next start ∧
      (walk key next stop bound start).Ended next stop start :=
  (Walk.sound_start key).explore key stop huniv bound (by simp [Walk.Closed, Walk.taken,
    Walk.find, Walk.empty]) (by simp [Walk.taken, Walk.find, Walk.empty]) (by omega)

/-- A walk that may take as many nodes as can be reached comes to its end: with a larger bound it
takes no other way. -/
theorem walk_of_le (key : α → Nat → Int) (stop : α → Bool) {univ : List α} {bound bound' : Nat}
    (huniv : ∀ b, Reaches next start b → b ∈ univ) (hbound : univ.length ≤ bound)
    (hle : bound ≤ bound') : walk key next stop bound' start = walk key next stop bound start := by
  obtain ⟨hsound, hended⟩ := walk_ended key stop huniv hbound
  obtain ⟨more, rfl⟩ := Nat.exists_eq_add_of_le hle
  refine Walk.explore_add key stop more bound (by simp [Walk.find, Walk.empty]) ?_
  rcases hended with ⟨last, earlier, htrail, hstop, -⟩ | ⟨-, hall⟩
  · exact .inr ⟨last, by rw [← walk, htrail]; rfl, hstop⟩
  · exact .inl (hsound.pending_eq_empty fun b => (hall b).2)

/-- Without a node to stop at, a walk takes what can be reached and nothing twice, each node but
the start over an edge from a node taken before. -/
theorem walk_all (key : α → Nat → Int) {univ : List α} {bound : Nat}
    (huniv : ∀ b, Reaches next start b → b ∈ univ) (hbound : univ.length ≤ bound) :
    let trail := (walk key next (fun _ => false) bound start).trail
    (∀ b, b ∈ trail.map (·.node) ↔ Reaches next start b) ∧ (trail.map (·.node)).Nodup ∧
      WellFound next start trail := by
  obtain ⟨hsound, ⟨last, _, _, h, _⟩ | ⟨_, h⟩⟩ := walk_ended key (fun _ => false) huniv hbound
  · simp at h
  · exact ⟨h, hsound.nodup, hsound.wellFound⟩

/-- A walk nearest first takes what can be reached. -/
theorem mem_breadthFirst (univ : List α) {bound : Nat}
    (huniv : ∀ b, Reaches next start b → b ∈ univ) (hbound : univ.length ≤ bound) (b : α) :
    b ∈ (breadthFirst next bound start).map (·.node) ↔ Reaches next start b := by
  rw [breadthFirst, List.map_reverse, List.mem_reverse]
  exact (walk_all asFound huniv hbound).1 b

/-- A walk nearest first takes nothing twice. -/
theorem nodup_breadthFirst (univ : List α) {bound : Nat}
    (huniv : ∀ b, Reaches next start b → b ∈ univ) (hbound : univ.length ≤ bound) :
    ((breadthFirst next bound start).map (·.node)).Nodup := by
  rw [breadthFirst, List.map_reverse]
  exact List.pairwise_reverse.2 ((walk_all asFound huniv hbound).2.1.imp Ne.symm)

/-- The arrivals of a walk nearest first, latest first, follow from one another. -/
theorem wellFound_breadthFirst {univ : List α} {bound : Nat}
    (huniv : ∀ b, Reaches next start b → b ∈ univ) (hbound : univ.length ≤ bound) :
    WellFound next start (breadthFirst next bound start).reverse := by
  rw [breadthFirst, List.reverse_reverse]
  exact (walk_all asFound huniv hbound).2.2

/-- Wherever it stands in a walk nearest first, an arrival follows from those before it. -/
theorem follows_of_breadthFirst_eq (univ : List α) {bound : Nat}
    (huniv : ∀ b, Reaches next start b → b ∈ univ) (hbound : univ.length ≤ bound)
    {before after : List (Arrival α ε)} {a : Arrival α ε}
    (h : breadthFirst next bound start = before ++ a :: after) : a.Follows next start before := by
  have hwell : WellFound next start (breadthFirst next bound start).reverse :=
    wellFound_breadthFirst huniv hbound
  rw [h, List.reverse_append, List.reverse_cons, List.append_assoc, List.singleton_append] at hwell
  exact hwell.follows_of_append.mono fun b hb => List.mem_reverse.1 hb

/-- A walk branch by branch takes what can be reached. -/
theorem mem_depthFirst (univ : List α) {bound : Nat}
    (huniv : ∀ b, Reaches next start b → b ∈ univ) (hbound : univ.length ≤ bound) (b : α) :
    b ∈ (depthFirst next bound start).map (·.node) ↔ Reaches next start b := by
  rw [depthFirst, List.map_reverse, List.mem_reverse]
  exact (walk_all lastFound huniv hbound).1 b

/-- A walk branch by branch takes nothing twice. -/
theorem nodup_depthFirst (univ : List α) {bound : Nat}
    (huniv : ∀ b, Reaches next start b → b ∈ univ) (hbound : univ.length ≤ bound) :
    ((depthFirst next bound start).map (·.node)).Nodup := by
  rw [depthFirst, List.map_reverse]
  exact List.pairwise_reverse.2 ((walk_all lastFound huniv hbound).2.1.imp Ne.symm)

/-! ### Routes -/

/-- Steps that follow edges of a graph from one node to another. -/
def IsRoute (next : α → List (ε × α)) : α → List (Step α ε) → α → Prop
  | a, [], b => a = b
  | a, s :: rest, b => s.source = a ∧ (s.edge, s.target) ∈ next a ∧ IsRoute next s.target rest b

omit [Ord α] [Std.TransOrd α] [Std.LawfulEqOrd α] in
/-- A route goes on over one more edge. -/
theorem IsRoute.snoc {a b : α} {steps : List (Step α ε)} (h : IsRoute next a steps b)
    {edge : ε} {c : α} (he : (edge, c) ∈ next b) :
    IsRoute next a (steps ++ [⟨b, edge, c⟩]) c := by
  induction steps generalizing a with
  | nil =>
      obtain rfl : a = b := h
      exact ⟨rfl, he, rfl⟩
  | cons s rest ih => exact ⟨h.1, h.2.1, ih h.2.2⟩

omit [Ord α] [Std.TransOrd α] [Std.LawfulEqOrd α] in
/-- The steps of a route start on the nodes it passes before its end. -/
theorem IsRoute.sources {a b : α} {steps : List (Step α ε)} (h : IsRoute next a steps b) :
    steps.map (·.source) ++ [b] = a :: steps.map (·.target) := by
  induction steps generalizing a with
  | nil =>
      obtain rfl : a = b := h
      rfl
  | cons s rest ih => rw [List.map_cons, List.map_cons, List.cons_append, ih h.2.2, h.1]

omit [Ord α] [Std.TransOrd α] [Std.LawfulEqOrd α] in
/-- Following the trail of a walk back from a node gives a route there over nodes of the trail, none
of them twice. -/
theorem WellFound.routeBack [DecidableEq α] {trail : List (Arrival α ε)}
    (h : WellFound next start trail) (hnodup : (trail.map (·.node)).Nodup) {b : α}
    (hb : b ∈ trail.map (·.node)) :
    ∃ steps, (∀ onward, Search.routeBack trail b onward = steps ++ onward) ∧
      IsRoute next start steps b ∧ (start :: steps.map (·.target)).Nodup ∧
      ∀ c ∈ start :: steps.map (·.target), c ∈ trail.map (·.node) := by
  -- From the latest arrival on: a node is looked for among earlier arrivals only, so the route does
  -- not come back to it.
  induction trail generalizing b with
  | nil => simp at hb
  | cons a earlier ih =>
      obtain ⟨ha, hearlier⟩ := h
      obtain ⟨hnew, hnodup⟩ := List.nodup_cons.1 hnodup
      unfold Search.routeBack
      by_cases hab : a.node = b
      · subst hab
        simp only [if_pos]
        -- The node is this arrival: it is the start, or the route goes on from where it was found.
        cases hv : a.via with
        | none =>
            obtain rfl : a.node = start := by simpa only [Arrival.Follows, hv] using ha
            exact ⟨[], fun _ => rfl, rfl, by simp, by simp⟩
        | some via =>
            obtain ⟨source, edge⟩ := via
            obtain ⟨hsource, hedge⟩ : source ∈ earlier.map (·.node) ∧
                (edge, a.node) ∈ next source := by simpa only [Arrival.Follows, hv] using ha
            obtain ⟨steps, hback, hroute, hnd, hmem⟩ := ih hearlier hnodup hsource
            refine ⟨steps ++ [⟨source, edge, a.node⟩], fun onward => ?_, hroute.snoc hedge, ?_, ?_⟩
            · simp [hback]
            · rw [List.map_append, ← List.cons_append]
              refine List.nodup_append.2 ⟨hnd, by simp, ?_⟩
              intro c hc d hd
              obtain rfl : d = a.node := by simpa using hd
              rintro rfl
              exact hnew (hmem _ hc)
            · intro c hc
              rw [List.map_append, ← List.cons_append, List.mem_append] at hc
              rcases hc with hc | hc
              · exact List.mem_cons_of_mem _ (hmem c hc)
              · obtain rfl : c = a.node := by simpa using hc
                exact List.mem_cons_self ..
      · rw [List.map_cons, List.mem_cons] at hb
        obtain ⟨steps, hback, hroute, hnd, hmem⟩ :=
          ih hearlier hnodup (hb.resolve_left (Ne.symm hab))
        simp only [if_neg hab]
        exact ⟨steps, hback, hroute, hnd, fun c hc => List.mem_cons_of_mem _ (hmem c hc)⟩

variable [DecidableEq α]

/-- A goal found is a goal. Its route follows edges from the start, meets no node twice, and no
goal before its end. -/
theorem bestFirst_eq_some {key : α → Nat} {isGoal : α → Bool} {univ : List α} {bound : Nat}
    (huniv : ∀ b, Reaches next start b → b ∈ univ) (hbound : univ.length ≤ bound) {goal : α}
    {steps : List (Step α ε)}
    (h : bestFirst key next isGoal bound start = some (goal, steps)) :
    isGoal goal = true ∧ IsRoute next start steps goal ∧
      (start :: steps.map (·.target)).Nodup ∧ ∀ s ∈ steps, isGoal s.source = false := by
  obtain ⟨hsound, hended⟩ := walk_ended (fun a _ => key a) isGoal huniv hbound
  unfold bestFirst Walk.goal? at h
  split at h
  · contradiction
  · next last earlier htrail =>
    split at h
    · next hgoal =>
      obtain ⟨rfl, rfl⟩ := Prod.mk.inj (Option.some.inj h)
      have hw := hsound.wellFound
      have hn := hsound.nodup
      unfold Walk.taken at hn
      rw [htrail] at hw hn
      obtain ⟨steps, hback, hroute, hnd, hmem⟩ := hw.routeBack hn (List.mem_cons_self ..)
      rw [htrail, hback, List.append_nil]
      refine ⟨hgoal, hroute, hnd, fun s hs => ?_⟩
      -- The source of a step is met before the goal, so it was taken before the walk stopped.
      have hsource : s.source ∈ earlier.map (·.node) := by
        have hne : s.source ≠ last.node := by
          intro heq
          have hd := hnd
          rw [← hroute.sources] at hd
          exact (List.nodup_append.1 hd).2.2 _ (List.mem_map_of_mem hs) _
            (List.mem_singleton_self _) heq
        have hall : s.source ∈ start :: steps.map (·.target) := by
          rw [← hroute.sources]
          exact List.mem_append_left _ (List.mem_map_of_mem hs)
        exact (List.mem_cons.1 (hmem _ hall)).resolve_left hne
      obtain ⟨a, ha, haeq⟩ := List.mem_map.1 hsource
      -- Whichever way the walk ended, nothing taken before its last node is a goal.
      rcases hended with ⟨last', earlier', htrail', -, hearlier⟩ | ⟨hall, -⟩
      · obtain ⟨rfl, rfl⟩ := List.cons.inj (htrail.symm.trans htrail')
        exact haeq ▸ hearlier a ha
      · refine haeq ▸ hall a.node ?_
        rw [Walk.taken, htrail]
        exact List.mem_cons_of_mem _ (List.mem_map_of_mem ha)
    · contradiction

/-- A walk that finds no goal has none to reach. -/
theorem bestFirst_eq_none {key : α → Nat} {isGoal : α → Bool} {univ : List α} {bound : Nat}
    (huniv : ∀ b, Reaches next start b → b ∈ univ) (hbound : univ.length ≤ bound)
    (h : bestFirst key next isGoal bound start = none) {b : α} (hb : Reaches next start b) :
    isGoal b = false := by
  obtain ⟨-, hended⟩ := walk_ended (fun a _ => key a) isGoal huniv hbound
  unfold bestFirst Walk.goal? at h
  rcases hended with ⟨last, earlier, htrail, hstop, -⟩ | ⟨hall, hmem⟩
  · rw [htrail] at h
    simp [hstop] at h
  · exact hall b ((hmem b).2 hb)

end

end Multicast.Search
