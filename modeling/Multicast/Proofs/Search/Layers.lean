import Mathlib.Data.List.Induction
import Mathlib.Order.Lattice.Nat
import Multicast.Proofs.Search.Walk

/-!
# `Multicast.Proofs.Search.Layers`: nearest nodes first

The distance of a node is the number of steps of a shortest route to it. A walk that takes
nodes as they were found takes them in the order of their distances. `Walk.Layered` is the
invariant: what is pending waits in that order, no nearer than anything taken and at most
one step farther than what was taken last.

A round keeps it because of two facts. The node taken is as near as any node not taken
yet, since a shortest route to one of those passes a pending node (`Sound.exists_awaiting`).
And a neighbour of it that is still unseen is exactly one step farther
(`Layered.distance_eq`): had it a nearer neighbour, that one would have been taken and the
node seen.

* `sorted_breadthFirst`: the nodes come in the order of their distances;
* `oneFarther_of_mem`: each comes over an edge from a node one step nearer;
* `route_breadthFirst`: followed back, these edges make a shortest route.
-/

set_option autoImplicit false

namespace Multicast.Search

variable {α ε : Type} {next : α → List (ε × α)} {start a b : α} {steps : List (Step α ε)}

/-! ### Distances -/

/-- The number of steps of a shortest route from the start to a node that can be reached. -/
noncomputable def distance (next : α → List (ε × α)) (start b : α) : Nat :=
  sInf {n | ∃ steps : List (Step α ε), IsRoute next start steps b ∧ steps.length = n}

/-- A route with one more step. -/
theorem isRoute_snoc {step : Step α ε} : IsRoute next a (steps ++ [step]) b ↔
    IsRoute next a steps step.source ∧ (step.edge, step.target) ∈ next step.source ∧
      step.target = b := by
  induction steps generalizing a with
  | nil =>
      constructor
      · rintro ⟨hsource, hedge, hend⟩
        exact ⟨hsource.symm, hsource ▸ hedge, hend⟩
      · rintro ⟨hsource, hedge, hend⟩
        obtain rfl : a = step.source := hsource
        exact ⟨rfl, hedge, hend⟩
  | cons first rest ih => simp only [List.cons_append, IsRoute, ih, and_assoc]

/-- A route leads where its edges do. -/
theorem IsRoute.reaches (h : IsRoute next start steps b) : Reaches next start b := by
  induction steps generalizing start with
  | nil => exact Eq.subst (motive := Reaches next start) h .refl
  | cons step rest ih => exact (ih h.2.2).head ⟨step.edge, h.2.1⟩

/-- What can be reached is reached over some route. -/
theorem Reaches.exists_isRoute (h : Reaches next start b) :
    ∃ steps : List (Step α ε), IsRoute next start steps b := by
  induction h with
  | refl => exact ⟨[], rfl⟩
  | tail _ hedge ih =>
      obtain ⟨steps, hsteps⟩ := ih
      obtain ⟨edge, he⟩ := hedge
      exact ⟨_, hsteps.snoc he⟩

/-- No route is shorter than the distance. -/
theorem distance_le (h : IsRoute next start steps b) : distance next start b ≤ steps.length :=
  Nat.sInf_le ⟨steps, h, rfl⟩

/-- Some route is as short as the distance. For nodes that cannot be reached the distance is zero
and means nothing. -/
theorem Reaches.exists_shortest (h : Reaches next start b) :
    ∃ steps : List (Step α ε), IsRoute next start steps b ∧
      steps.length = distance next start b := by
  obtain ⟨steps, hsteps⟩ := h.exists_isRoute
  have hsome : {n | ∃ steps : List (Step α ε), IsRoute next start steps b ∧
    steps.length = n}.Nonempty := ⟨_, steps, hsteps, rfl⟩
  exact Nat.sInf_mem hsome

/-- The start is at distance zero. -/
@[simp] theorem distance_start (next : α → List (ε × α)) (start : α) :
    distance next start start = 0 := by
  have hnil : IsRoute next start ([] : List (Step α ε)) start := rfl
  exact Nat.le_zero.1 (distance_le hnil)

/-- An edge leads one step farther at most. -/
theorem distance_le_succ (ha : Reaches next start a) (hab : Adjacent next a b) :
    distance next start b ≤ distance next start a + 1 := by
  obtain ⟨steps, hsteps, hlength⟩ := ha.exists_shortest
  obtain ⟨edge, he⟩ := hab
  have := distance_le (hsteps.snoc he)
  rwa [List.length_append, hlength] at this

/-- Some edge to a node other than the start comes from one step nearer. The last edge of a shortest
route is such an edge. -/
theorem Reaches.exists_nearer (h : Reaches next start b) (hne : b ≠ start) :
    ∃ a, Reaches next start a ∧ Adjacent next a b ∧
      distance next start b = distance next start a + 1 := by
  obtain ⟨steps, hsteps, hlength⟩ := h.exists_shortest
  cases steps using List.reverseRecOn with
  | nil => exact absurd (Eq.symm hsteps) hne
  | append_singleton init step =>
      obtain ⟨hinit, hedge, rfl⟩ := isRoute_snoc.1 hsteps
      have hadjacent : Adjacent next step.source step.target := ⟨_, hedge⟩
      refine ⟨step.source, hinit.reaches, hadjacent, ?_⟩
      have hle := distance_le hinit
      have hge := distance_le_succ hinit.reaches hadjacent
      rw [List.length_append, List.length_singleton] at hlength
      omega

/-- An arrival over an edge comes from a node one step nearer. -/
def Arrival.OneFarther (next : α → List (ε × α)) (start : α) (a : Arrival α ε) : Prop :=
  ∀ source edge, a.via = some (source, edge) →
    distance next start a.node = distance next start source + 1

/-! ### The order of a walk -/

variable [Ord α] [Std.TransOrd α]

namespace Walk

/-- The nodes taken and the nodes pending are in the order of their distances. -/
structure Layered (next : α → List (ε × α)) (start : α) (w : Walk α ε) : Prop where
  key_eq : ∀ {rank a}, w.Awaits rank a → rank.key = 0
  inOrder : ∀ {rank a rank' a'}, w.Awaits rank a → w.Awaits rank' a' → rank.place ≤ rank'.place →
    distance next start a.node ≤ distance next start a'.node
  sorted : w.trail.Pairwise fun later earlier =>
    distance next start earlier.node ≤ distance next start later.node
  behind : ∀ {rank a}, w.Awaits rank a → ∀ b ∈ w.trail,
    distance next start b.node ≤ distance next start a.node
  close : ∀ {rank a}, w.Awaits rank a → ∀ last ∈ w.trail.head?,
    distance next start a.node ≤ distance next start last.node + 1
  via : ∀ a, (a ∈ w.trail ∨ ∃ rank, w.Awaits rank a) → a.OneFarther next start

variable {w w' : Walk α ε} {node : α}

/-- A node not taken is no nearer than some pending one. It is the first node along a route that has
not been taken. -/
theorem Sound.exists_awaiting (h : w.Sound next start) (hc : w.Closed next)
    (hsteps : IsRoute next start steps b) (hb : b ∉ w.taken) :
    ∃ rank a, w.Awaits rank a ∧ distance next start a.node ≤ steps.length := by
  -- Back along the route to the first node that is not taken: the one before it is.
  induction steps using List.reverseRecOn generalizing b with
  | nil =>
      obtain rfl : start = b := hsteps
      obtain ⟨rank, a, ha, hnode⟩ := ((h.seen_iff start).1 h.start_seen).resolve_left hb
      exact ⟨rank, a, ha, by simp [hnode]⟩
  | append_singleton init step ih =>
      obtain ⟨hinit, hedge, rfl⟩ := isRoute_snoc.1 hsteps
      by_cases hsource : step.source ∈ w.taken
      · have hseen := hc _ hsource _ ⟨_, hedge⟩
        obtain ⟨rank, a, ha, hnode⟩ := ((h.seen_iff _).1 hseen).resolve_left hb
        exact ⟨rank, a, ha, hnode ▸ distance_le hsteps⟩
      · obtain ⟨rank, a, ha, hle⟩ := ih hinit hsource
        refine ⟨rank, a, ha, hle.trans ?_⟩
        rw [List.length_append]
        exact Nat.le_add_right ..

namespace Layered

/-- The pending node taken is as near as all others pending. Ranks are compared by key and place;
the keys are all zero here, so the places decide. -/
theorem nearest_pending (hl : w.Layered next start) {rank rank' : Rank} {a a' : Arrival α ε}
    (ha : w.Awaits rank a) (hmin : ∀ r, r ∈ w.pending → (compare rank r).isLE = true)
    (ha' : w.Awaits rank' a') : distance next start a.node ≤ distance next start a'.node := by
  refine hl.inOrder ha ha' ?_
  have hmem : rank' ∈ w.pending := Std.ExtTreeMap.mem_iff_isSome_getElem?.2 (by
    rw [show w.pending[rank']? = some a' from ha']
    rfl)
  -- All keys are equal, so that the smaller rank is the earlier place.
  by_contra hlt
  have hgt : compare rank' rank = .lt :=
    Rank.compare_lt_iff.2 (.inr ⟨by rw [hl.key_eq ha, hl.key_eq ha'], Nat.lt_of_not_le hlt⟩)
  have hswap : compare rank rank' = (compare rank' rank).swap := Std.OrientedCmp.eq_swap
  have hle := hmin rank' hmem
  rw [hswap, hgt] at hle
  contradiction

/-- The node taken is as near as all nodes not taken. -/
theorem nearest (hl : w.Layered next start) (h : w.Sound next start) (hc : w.Closed next)
    (ht : w.take? = some (node, w')) (hb : Reaches next start b) (hnot : b ∉ w.taken) :
    distance next start node ≤ distance next start b := by
  obtain ⟨rank, a, ha, hmin, rfl, rfl⟩ := take?_eq_some_iff.1 ht
  obtain ⟨steps, hsteps, hlength⟩ := hb.exists_shortest
  obtain ⟨rank', a', ha', hle⟩ := h.exists_awaiting hc hsteps hnot
  exact (hl.nearest_pending ha hmin ha').trans (hlength ▸ hle)

/-- An unseen neighbour of the node taken is one step farther. -/
theorem distance_eq (hl : w.Layered next start) (h : w.Sound next start) (hc : w.Closed next)
    (ht : w.take? = some (node, w')) (hb : Adjacent next node b) (hnew : b ∉ w.seen) :
    distance next start b = distance next start node + 1 := by
  have hnode : Reaches next start node := by
    obtain ⟨rank, a, ha, -, rfl, -⟩ := take?_eq_some_iff.1 ht
    exact (h.follows ha).reaches h.wellFound
  have hle := distance_le_succ hnode hb
  obtain ⟨p, hp, hpb, heq⟩ := Reaches.exists_nearer (hnode.tail hb)
    fun heq => hnew (heq ▸ h.start_seen)
  -- A node that leads to an unseen one has not been taken, so it is no nearer than this one.
  have hge := hl.nearest h hc ht hp fun htaken => hnew (hc p htaken b hpb)
  omega

/-- Taking a node keeps the order. The new last node of the trail is no nearer than those before it,
and what stays pending was no nearer than it. -/
theorem take (hl : w.Layered next start) (h : w.Sound next start)
    (ht : w.take? = some (node, w')) :
    w'.Layered next start ∧ ∃ last ∈ w'.trail.head?, last.node = node := by
  obtain ⟨rank, a, ha, hmin, rfl, rfl⟩ := take?_eq_some_iff.1 ht
  have hget : ∀ {r b}, (Walk.mk w.seen (w.pending.erase rank) w.found (a :: w.trail)).Awaits r b →
      w.Awaits r b := by
    intro r b hb
    simp only [Awaits, Std.ExtTreeMap.getElem?_erase] at hb
    split at hb
    · contradiction
    · exact hb
  refine ⟨⟨fun hb => hl.key_eq (hget hb), fun hb hb' => hl.inOrder (hget hb) (hget hb'),
    List.pairwise_cons.2 ⟨hl.behind ha, hl.sorted⟩, fun hb c hc => ?_, fun hb last hlast => ?_,
    fun b hb => ?_⟩, a, rfl, rfl⟩
  · rcases List.mem_cons.1 hc with rfl | hc
    · exact hl.nearest_pending ha hmin (hget hb)
    · exact hl.behind (hget hb) c hc
  · obtain rfl : a = last := Option.some.inj hlast
    cases htrail : w.trail with
    | nil =>
        -- Only the start is pending before anything is taken.
        have hstart := h.follows (hget hb)
        rw [htrail] at hstart
        unfold Arrival.Follows at hstart
        split at hstart
        · simp [hstart]
        · simp at hstart
    | cons before earlier =>
        have hclose := hl.close (hget hb) before (by rw [htrail]; rfl)
        have hbehind := hl.behind ha before (by rw [htrail]; exact List.mem_cons_self ..)
        omega
  · rcases hb with hb | ⟨r, hr⟩
    · rcases List.mem_cons.1 hb with rfl | hb
      · exact hl.via _ (.inr ⟨rank, ha⟩)
      · exact hl.via _ (.inl hb)
    · exact hl.via _ (.inr ⟨r, hget hr⟩)

/-- Finding a neighbour of the node taken last, one step farther, keeps the order. It goes behind
all that are pending, and it is as far as any of them. -/
theorem find (hl : w.Layered next start) (h : w.Sound next start) {last : Arrival α ε}
    (hlast : last ∈ w.trail.head?) {edge : ε}
    (hfar : distance next start b = distance next start last.node + 1) :
    (w.find asFound ⟨b, some (last.node, edge)⟩).Layered next start := by
  obtain ⟨earlier, htrail⟩ : ∃ earlier, w.trail = last :: earlier := by
    cases htrail : w.trail with
    | nil => simp [htrail] at hlast
    | cons first earlier =>
        rw [htrail] at hlast
        exact ⟨earlier, by rw [Option.some.inj hlast]⟩
  -- All nodes taken are as near as the last one, and one step makes up for all pending.
  have htaken : ∀ c ∈ w.trail, distance next start c.node ≤ distance next start last.node := by
    have hsorted := hl.sorted
    rw [htrail] at hsorted ⊢
    exact List.forall_mem_cons.2 ⟨Nat.le_refl _, (List.pairwise_cons.1 hsorted).1⟩
  refine ⟨fun hc => ?_, fun hc hd hle => ?_, hl.sorted, fun hc d hd => ?_, fun hc d hd => ?_,
    fun c hc => ?_⟩
  · rcases (awaits_find h.place_lt).1 hc with ⟨rfl, -⟩ | hc
    · rfl
    · exact hl.key_eq hc
  · rcases (awaits_find h.place_lt).1 hc with ⟨rfl, rfl⟩ | hc <;>
      rcases (awaits_find h.place_lt).1 hd with ⟨rfl, rfl⟩ | hd
    · exact Nat.le_refl _
    · -- The new place is behind the old ones.
      exact absurd (h.place_lt hd) (Nat.not_lt.2 hle)
    · exact hfar ▸ hl.close hc last hlast
    · exact hl.inOrder hc hd hle
  · rcases (awaits_find h.place_lt).1 hc with ⟨-, rfl⟩ | hc
    · exact hfar ▸ Nat.le_succ_of_le (htaken d hd)
    · exact hl.behind hc d hd
  · obtain rfl := Option.some.inj (hlast.symm.trans hd)
    rcases (awaits_find h.place_lt).1 hc with ⟨-, rfl⟩ | hc
    · exact Nat.le_of_eq hfar
    · exact hl.close hc last hlast
  · rcases hc with hc | ⟨rank, hc⟩
    · exact hl.via c (.inl hc)
    · rcases (awaits_find h.place_lt).1 hc with ⟨-, rfl⟩ | hc
      · rintro source edge ⟨⟩
        exact hfar
      · exact hl.via c (.inr ⟨rank, hc⟩)

variable [Std.LawfulEqOrd α]

/-- Going through the neighbours of the node taken last keeps the order, if the unseen ones are one
step farther. -/
theorem foldl_findNeighbour {last : Arrival α ε} (l : List (ε × α)) :
    ∀ {w : Walk α ε}, w.Layered next start → w.Sound next start → last ∈ w.trail.head? →
      (∀ n ∈ l, n ∈ next last.node) →
      (∀ n ∈ l, n.2 ∉ w.seen → distance next start n.2 = distance next start last.node + 1) →
      (l.foldl (Walk.findNeighbour asFound last.node) w).Layered next start := by
  induction l with
  | nil => exact fun hl _ _ _ _ => hl
  | cons n l ih =>
      intro w hl h hlast hmem hfar
      obtain ⟨hn, hmem⟩ := List.forall_mem_cons.1 hmem
      obtain ⟨hnfar, hfar⟩ := List.forall_mem_cons.1 hfar
      have hsource : last.node ∈ w.taken := List.mem_map_of_mem (List.mem_of_mem_head? hlast)
      refine ih ?_ (h.findNeighbour asFound hsource hn) (by rwa [trail_findNeighbour]) hmem
        fun m hm hnew => hfar m hm fun hseen => hnew (mem_seen_findNeighbour.2 (.inr hseen))
      unfold Walk.findNeighbour
      split
      · exact hl
      · next hnew =>
        rw [Std.ExtTreeSet.contains_iff_mem] at hnew
        exact hl.find h hlast (hnfar hnew)

/-- A round keeps the order. -/
theorem round (hl : w.Layered next start) (h : w.Sound next start) (hc : w.Closed next)
    (ht : w.take? = some (node, w')) :
    ((next node).foldl (Walk.findNeighbour asFound node) w').Layered next start := by
  obtain ⟨hl', last, hlast, rfl⟩ := hl.take h ht
  obtain ⟨h', hseen, -⟩ := h.take ht
  exact foldl_findNeighbour _ hl' h' hlast (fun _ hn => hn) fun n hn hnew =>
    hl.distance_eq h hc ht ⟨n.1, hn⟩ (hseen ▸ hnew)

/-- Any number of rounds keep the order, by the step lemma above. -/
theorem explore (stop : α → Bool) :
    ∀ (bound : Nat) {w : Walk α ε}, w.Layered next start → w.Sound next start → w.Closed next →
      (Walk.explore asFound next stop bound w).Layered next start := by
  intro bound
  induction bound with
  | zero => exact fun hl _ _ => hl
  | succ bound ih =>
      intro w hl h hc
      unfold Walk.explore
      split
      · exact hl
      · next node w' ht =>
        split
        · exact (hl.take h ht).1
        · obtain ⟨hsound, hclosed, -⟩ := h.round hc asFound ht
          exact ih (hl.round h hc ht) hsound hclosed

end Layered

/-- A walk that has only found its start is in order. -/
theorem layered_start [Std.LawfulEqOrd α] (next : α → List (ε × α)) (start : α) :
    ((empty : Walk α ε).find asFound ⟨start, none⟩).Layered next start := by
  have hawaits : ∀ {rank : Rank} {a : Arrival α ε},
      ((empty : Walk α ε).find asFound ⟨start, none⟩).Awaits rank a →
        rank = ⟨0, 0⟩ ∧ a = ⟨start, none⟩ := by
    intro rank a ha
    rcases (awaits_find fun h => absurd h (not_awaits_empty _ _)).1 ha with ⟨hrank, ha⟩ | ha
    · exact ⟨hrank, ha.symm⟩
    · exact absurd ha (not_awaits_empty _ _)
  refine ⟨fun ha => ?_, fun ha ha' _ => ?_, .nil, fun _ b hb => ?_, fun _ b hb => ?_,
    fun a ha => ?_⟩
  · rw [(hawaits ha).1]
  · rw [(hawaits ha).2, (hawaits ha').2]
  · simp [Walk.find, empty] at hb
  · simp [Walk.find, empty] at hb
  · rcases ha with ha | ⟨rank, ha⟩
    · simp [Walk.find, empty] at ha
    · rw [(hawaits ha).2]
      intro source edge hvia
      contradiction

end Walk

/-! ### Breadth-first walks -/

variable [Std.LawfulEqOrd α]

/-- A walk in the order of finding is layered wherever it stops. -/
theorem layered_walk (stop : α → Bool) (bound : Nat) :
    (walk asFound next stop bound start).Layered next start :=
  (Walk.layered_start next start).explore stop bound (Walk.sound_start asFound)
    (by simp [Walk.Closed, Walk.taken, Walk.find, Walk.empty])

/-- The nodes come in the order of their distances. -/
theorem sorted_breadthFirst (next : α → List (ε × α)) (bound : Nat) (start : α) :
    (breadthFirst next bound start).Pairwise fun a b =>
      distance next start a.node ≤ distance next start b.node := by
  rw [breadthFirst, List.pairwise_reverse]
  exact (layered_walk _ bound).sorted

/-- Each node comes over an edge from a node one step nearer. -/
theorem oneFarther_of_mem {bound : Nat} {a : Arrival α ε}
    (ha : a ∈ breadthFirst next bound start) : a.OneFarther next start := by
  rw [breadthFirst, List.mem_reverse] at ha
  exact (layered_walk _ bound).via a (.inl ha)

variable [DecidableEq α]

omit [Ord α] [Std.TransOrd α] [Std.LawfulEqOrd α] in
/-- The steps of a route that is followed back are arrivals. -/
theorem mem_of_mem_routeBack {trail : List (Arrival α ε)} {onward : List (Step α ε)}
    {step : Step α ε} (h : step ∈ routeBack trail b onward) :
    step ∈ onward ∨ ⟨step.target, some (step.source, step.edge)⟩ ∈ trail := by
  induction trail generalizing b onward with
  | nil => exact .inl h
  | cons a earlier ih =>
      unfold routeBack at h
      split at h
      · next hnode =>
        split at h
        · exact .inl h
        · next source edge hvia =>
          rcases ih h with h | h
          · rcases List.mem_cons.1 h with rfl | h
            · refine .inr (List.mem_cons.2 (.inl ?_))
              rw [← hnode, ← hvia]
            · exact .inl h
          · exact .inr (List.mem_cons_of_mem _ h)
      · exact (ih h).imp_right (List.mem_cons_of_mem _)

omit [Ord α] [Std.TransOrd α] [Std.LawfulEqOrd α] in
/-- Followed back over edges from one step nearer, a route has as many steps as its end is far. -/
theorem length_routeBack {trail : List (Arrival α ε)} (h : WellFound next start trail)
    (hfar : ∀ a ∈ trail, a.OneFarther next start) (hb : b ∈ trail.map (·.node))
    (onward : List (Step α ε)) :
    (routeBack trail b onward).length = distance next start b + onward.length := by
  induction trail generalizing b onward with
  | nil => simp at hb
  | cons a earlier ih =>
      obtain ⟨ha, hearlier⟩ := h
      obtain ⟨hafar, hfar⟩ := List.forall_mem_cons.1 hfar
      unfold routeBack
      split
      · next hnode =>
        subst hnode
        unfold Arrival.Follows at ha
        cases hvia : a.via with
        | none =>
            obtain rfl : a.node = start := by simpa only [hvia] using ha
            simp
        | some via =>
            obtain ⟨source, edge⟩ := via
            obtain ⟨hsource, -⟩ : source ∈ earlier.map (·.node) ∧ (edge, a.node) ∈ next source := by
              simpa only [hvia] using ha
            show (routeBack earlier source _).length = _
            rw [ih hearlier hfar hsource, hafar source edge hvia, List.length_cons]
            omega
      · next hnode =>
        rw [List.map_cons, List.mem_cons] at hb
        exact ih hearlier hfar (hb.resolve_left fun heq => hnode heq.symm) onward

/-- The route followed back through a walk is a shortest one and runs over arrivals. -/
theorem route_breadthFirst {univ : List α} {bound : Nat}
    (huniv : ∀ b, Reaches next start b → b ∈ univ) (hbound : univ.length ≤ bound)
    (hb : Reaches next start b) :
    IsRoute next start (route (breadthFirst next bound start) b) b ∧
      (route (breadthFirst next bound start) b).length = distance next start b ∧
      (start :: (route (breadthFirst next bound start) b).map (·.target)).Nodup ∧
      ∀ step ∈ route (breadthFirst next bound start) b,
        ⟨step.target, some (step.source, step.edge)⟩ ∈ breadthFirst next bound start := by
  have hmem : b ∈ ((breadthFirst next bound start).reverse).map (·.node) := by
    rw [List.map_reverse, List.mem_reverse]
    exact (mem_breadthFirst univ huniv hbound b).2 hb
  have hwell : WellFound next start (breadthFirst next bound start).reverse :=
    wellFound_breadthFirst huniv hbound
  have hnodup : ((breadthFirst next bound start).reverse.map (·.node)).Nodup := by
    rw [List.map_reverse]
    exact List.nodup_reverse.2 (nodup_breadthFirst univ huniv hbound)
  have hfar : ∀ a ∈ (breadthFirst next bound start).reverse, a.OneFarther next start := fun a ha =>
    oneFarther_of_mem (List.mem_reverse.1 ha)
  obtain ⟨steps, hback, hroute, hnd, -⟩ := hwell.routeBack hnodup hmem
  have hsteps : route (breadthFirst next bound start) b = steps := by
    rw [route, hback, List.append_nil]
  refine ⟨hsteps ▸ hroute, ?_, hsteps ▸ hnd, fun step hstep => ?_⟩
  · rw [route, length_routeBack hwell hfar hmem]
    rfl
  · exact List.mem_reverse.1 ((mem_of_mem_routeBack hstep).resolve_left (by simp))

end Multicast.Search
