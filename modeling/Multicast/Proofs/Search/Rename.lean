import Multicast.Proofs.Search.Walk

/-!
# `Multicast.Proofs.Search.Rename`: the names of the nodes do not matter

A walk compares nodes only with one another. `Renaming` says that a map carries one
graph over to another: on the nodes of a set that no edge leaves it is injective,
and what it makes of a node has the neighbours it makes of the node's neighbours.
`Walk.Renamed` is the invariant: two walks hold the same nodes under the same ranks,
but for their names. Finding nodes and taking one keep it, so both walks take the
same nodes in the same order (`Renaming.breadthFirst_eq`).
-/

set_option autoImplicit false

namespace Multicast.Search

variable {α β ε : Type}

/-- An arrival under other names. -/
def Arrival.rename (σ : α → β) (a : Arrival α ε) : Arrival β ε :=
  ⟨σ a.node, a.via.map fun x => (σ x.1, x.2)⟩

/-- A map carries the nodes of a set over to another graph. -/
structure Renaming (σ : α → β) (set : α → Prop) (next : α → List (ε × α))
    (next' : β → List (ε × β)) : Prop where
  closed : ∀ {a x}, set a → x ∈ next a → set x.2
  inj : ∀ {a b}, set a → set b → σ a = σ b → a = b
  next : ∀ {a}, set a → next' (σ a) = (next a).map fun x => (x.1, σ x.2)

variable [Ord α] [Std.TransOrd α] [Ord β] [Std.TransOrd β]

/-- Two walks are at the same point, but for the names of the nodes. -/
structure Walk.Renamed (σ : α → β) (set : α → Prop) (w : Walk α ε) (w' : Walk β ε) : Prop where
  within : ∀ {rank a}, w.Awaits rank a → set a.node
  found : w'.found = w.found
  trail : w'.trail = w.trail.map (Arrival.rename σ)
  pending : ∀ rank : Rank, w'.pending[rank]? = (w.pending[rank]?).map (Arrival.rename σ)
  seen : ∀ {a}, set a → (σ a ∈ w'.seen ↔ a ∈ w.seen)

namespace Walk.Renamed

variable {σ : α → β} {set : α → Prop} {next : α → List (ε × α)} {next' : β → List (ε × β)}
  {w : Walk α ε} {w' : Walk β ε}

/-- The two walks have the same ranks pending. -/
theorem mem_pending (h : Renamed σ set w w') (rank : Rank) :
    rank ∈ w'.pending ↔ rank ∈ w.pending := by
  rw [Std.ExtTreeMap.mem_iff_isSome_getElem?, Std.ExtTreeMap.mem_iff_isSome_getElem?, h.pending,
    Option.isSome_map]

/-- The walks end together. -/
theorem take?_none (h : Renamed σ set w w') (ht : w.take? = none) : w'.take? = none := by
  have hempty : w'.pending = ∅ := Std.ExtTreeMap.ext_getElem? fun rank => by
    simp [h.pending, pending_eq_empty_of_take? ht]
  simp [Walk.take?, least?_eq_none_iff.2 hempty]

/-- The walks take the same node. -/
theorem take?_some (h : Renamed σ set w w') {node : α} {v : Walk α ε}
    (ht : w.take? = some (node, v)) :
    set node ∧ ∃ v', w'.take? = some (σ node, v') ∧ Renamed σ set v v' := by
  obtain ⟨rank, a, ha, hmin, rfl, rfl⟩ := take?_eq_some_iff.1 ht
  refine ⟨h.within ha, _, take?_eq_some_iff.2 ⟨rank, a.rename σ, ?_, ?_, rfl, rfl⟩, ?_⟩
  · rw [h.pending, ha]
    rfl
  · exact fun r hr => hmin r ((h.mem_pending r).1 hr)
  · refine ⟨fun {r b} hb => ?_, h.found, congrArg _ h.trail, fun r => ?_, h.seen⟩
    · simp only [Awaits, Std.ExtTreeMap.getElem?_erase] at hb
      split at hb
      · contradiction
      · exact h.within hb
    · simp only [Std.ExtTreeMap.getElem?_erase, h.pending]
      split <;> rfl

variable [Std.LawfulEqOrd α] [Std.LawfulEqOrd β]

/-- The walks find the same node under the same key. -/
theorem find (h : Renamed σ set w w') (hinj : ∀ {a b}, set a → set b → σ a = σ b → a = b)
    (key : α → Nat → Int) (key' : β → Nat → Int) {a : Arrival α ε} (ha : set a.node)
    (hkey : key' (σ a.node) w.found = key a.node w.found) :
    Renamed σ set (w.find key a) (w'.find key' (a.rename σ)) := by
  have hrank : (⟨key' (a.rename σ).node w'.found, w'.found⟩ : Rank) =
      ⟨key a.node w.found, w.found⟩ := by
    rw [h.found]
    exact congrArg (Rank.mk · _) hkey
  refine ⟨fun {rank b} hb => ?_, congrArg (· + 1) h.found, h.trail, fun rank => ?_, fun {b} hb => ?_⟩
  · simp only [Awaits, Walk.find, Std.ExtTreeMap.getElem?_insert] at hb
    split at hb
    · exact Option.some.inj hb ▸ ha
    · exact h.within hb
  · simp only [Walk.find, hrank, Std.ExtTreeMap.getElem?_insert, h.pending]
    split <;> rfl
  · simp only [mem_seen_find, h.seen hb]
    exact or_congr_left ⟨hinj hb ha, congrArg σ⟩

/-- The walks go through the same neighbours. -/
theorem foldl_findNeighbour (hinj : ∀ {a b}, set a → set b → σ a = σ b → a = b)
    {key : α → Nat → Int} {key' : β → Nat → Int}
    (hkey : ∀ {a}, set a → ∀ found, key' (σ a) found = key a found) (source : α)
    (l : List (ε × α)) (hl : ∀ x ∈ l, set x.2) (h : Renamed σ set w w') :
    Renamed σ set (l.foldl (findNeighbour key source) w)
      ((l.map fun x => (x.1, σ x.2)).foldl (findNeighbour key' (σ source)) w') := by
  induction l generalizing w w' with
  | nil => exact h
  | cons x l ih =>
      have hx := hl x (List.mem_cons_self ..)
      refine ih (fun y hy => hl y (List.mem_cons_of_mem _ hy)) ?_
      have hseen : w'.seen.contains (σ x.2) = w.seen.contains x.2 :=
        Bool.eq_iff_iff.2 (by simpa only [Std.ExtTreeSet.contains_iff_mem] using h.seen hx)
      simp only [findNeighbour, hseen]
      split
      · exact h
      · exact h.find hinj key key' hx (hkey hx _)

/-- The walks go the same way. -/
theorem explore (hσ : Renaming σ set next next') (key : α → Nat → Int) (key' : β → Nat → Int)
    (hkey : ∀ {a}, set a → ∀ found, key' (σ a) found = key a found) (stop : α → Bool)
    (stop' : β → Bool) (hstop : ∀ {a}, set a → stop' (σ a) = stop a) :
    ∀ (bound : Nat) {w : Walk α ε} {w' : Walk β ε}, Renamed σ set w w' →
      Renamed σ set (Walk.explore key next stop bound w)
        (Walk.explore key' next' stop' bound w') := by
  intro bound
  induction bound with
  | zero => exact fun h => h
  | succ bound ih =>
      intro w w' h
      rw [Walk.explore, Walk.explore]
      cases ht : w.take? with
      | none =>
          rw [h.take?_none ht]
          exact h
      | some taken =>
          obtain ⟨node, v⟩ := taken
          obtain ⟨hnode, v', ht', hv⟩ := h.take?_some ht
          simp only [ht', hstop hnode]
          split
          · exact hv
          · rw [hσ.next hnode]
            exact ih (foldl_findNeighbour hσ.inj hkey node _
              (fun x hx => hσ.closed hnode hx) hv)

end Walk.Renamed

/-- A breadth-first walk comes to the renamed nodes in the order of the nodes. -/
theorem Renaming.breadthFirst_eq [Std.LawfulEqOrd α] [Std.LawfulEqOrd β] {σ : α → β}
    {set : α → Prop} {next : α → List (ε × α)} {next' : β → List (ε × β)}
    (hσ : Renaming σ set next next') {start : α} (hstart : set start) (bound : Nat) :
    breadthFirst next' bound (σ start) =
      (breadthFirst next bound start).map (Arrival.rename σ) := by
  have hempty : Walk.Renamed σ set (Walk.empty : Walk α ε) (Walk.empty : Walk β ε) :=
    ⟨fun ha => absurd ha (Walk.not_awaits_empty _ _), rfl, rfl, fun _ => by simp [Walk.empty],
      fun _ => by simp [Walk.empty]⟩
  have hfound := hempty.find hσ.inj asFound asFound (a := ⟨start, none⟩) hstart rfl
  have h := Walk.Renamed.explore hσ asFound asFound (fun _ _ => rfl) (fun _ => false)
    (fun _ => false) (fun _ => rfl) bound hfound
  rw [breadthFirst, breadthFirst, List.map_reverse]
  exact congrArg List.reverse h.trail

end Multicast.Search
