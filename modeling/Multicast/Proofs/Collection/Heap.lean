import Mathlib.Data.List.Basic
import Multicast.Collection.Heap

/-!
# `Multicast.Proofs.Collection.Heap`: a heap gives its elements in order

For an order in which any two elements compare (`Heap.IsOrder`; ties are allowed) a heap stays
`Ordered` under `push` and `pop?`, keeps exactly the elements put in and not yet taken out, and
what it gives up goes no later than all that is left (`Heap.pop?_spec`).

Rising and sinking both move one element along a branch, and everything away from it stays in
order meanwhile. `HoleAt` is what holds of an array when the element at one place is left out of
account: the rest is in order, also across that place. The element that sinks is taken to the
bottom without a look at it, so nothing else is needed there. One that rises has in addition to go
no later than what is below it.
-/

set_option autoImplicit false

namespace Multicast.Heap

variable {α : Type} {atMost : α → α → Bool} {a : Array α} {i j pos c fuel : Nat} {x y v : α}

/-- Any two elements compare, and the comparison is transitive. Read `atMost a b` as "`a` goes no
earlier than `b`". -/
structure IsOrder (atMost : α → α → Bool) : Prop where
  total : ∀ a b, atMost a b = true ∨ atMost b a = true
  trans : ∀ {a b c}, atMost a b = true → atMost b c = true → atMost a c = true

/-- No element goes earlier than its parent. -/
def Ordered (atMost : α → α → Bool) (a : Array α) : Prop :=
  ∀ i x p, 0 < i → a[i]? = some x → a[(i - 1) / 2]? = some p → atMost x p = true

/-- The elements are in order but for the one at a place. -/
structure HoleAt (atMost : α → α → Bool) (a : Array α) (pos : Nat) : Prop where
  away : ∀ {i x p}, 0 < i → i ≠ pos → (i - 1) / 2 ≠ pos → a[i]? = some x →
    a[(i - 1) / 2]? = some p → atMost x p = true
  across : ∀ {i x p}, 0 < i → (i - 1) / 2 = pos → 0 < pos → a[i]? = some x →
    a[(pos - 1) / 2]? = some p → atMost x p = true

/-- The element at a place goes no later than the ones below it. -/
def LeadsBelow (atMost : α → α → Bool) (a : Array α) (pos : Nat) : Prop :=
  ∀ i s x, 0 < i → (i - 1) / 2 = pos → a[i]? = some s → a[pos]? = some x → atMost s x = true

/-- Any two elements compare, an element and itself included. -/
theorem IsOrder.refl (ho : IsOrder atMost) (x : α) : atMost x x = true :=
  (ho.total x x).elim id id

/-! ### Exchanging two elements -/

/-- After an exchange the two places hold each other's element, and every other place what it held. -/
theorem getElem?_exchange (hi : a[i]? = some x) (hj : a[j]? = some y) (k : Nat) :
    ((a.setIfInBounds i y).setIfInBounds j x)[k]? =
      if k = j then some x else if k = i then some y else a[k]? := by
  have hi' : i < a.size := (Array.getElem?_eq_some_iff.1 hi).1
  have hj' : j < a.size := (Array.getElem?_eq_some_iff.1 hj).1
  simp only [Array.getElem?_setIfInBounds, Array.size_setIfInBounds, hi', hj', if_true,
    eq_comm (a := j), eq_comm (a := i)]

/-- An exchange loses nothing: it is a swap of two places that are both in the array. -/
theorem exchange_perm (hi : a[i]? = some x) (hj : a[j]? = some y) :
    ((a.setIfInBounds i y).setIfInBounds j x).toList.Perm a.toList := by
  obtain ⟨hi', rfl⟩ := Array.getElem?_eq_some_iff.1 hi
  obtain ⟨hj', rfl⟩ := Array.getElem?_eq_some_iff.1 hj
  have hswap : (a.setIfInBounds i a[j]).setIfInBounds j a[i] = a.swap i j := by
    simp [Array.swap, Array.setIfInBounds, hi', hj']
  rw [hswap]
  exact Array.perm_iff_toList_perm.1 (Array.swap_perm hi' hj')

/-! ### Rising -/

/-- An array that is in order but for one place is in order altogether when the element there fits
in with what is below it and with its parent. This is how a rise ends. -/
theorem Ordered.of_hole (h : HoleAt atMost a pos) (hbelow : LeadsBelow atMost a pos)
    (habove : ∀ {x p}, 0 < pos → a[pos]? = some x → a[(pos - 1) / 2]? = some p →
      atMost x p = true) : Ordered atMost a := by
  intro i x p hi hx hp
  by_cases hpos : i = pos
  · subst hpos
    exact habove hi hx hp
  · by_cases hparent : (i - 1) / 2 = pos
    · exact hbelow i x p hi hparent hx (hparent ▸ hp)
    · exact h.away hi hpos hparent hx hp

/-- The hole moves up when its element is exchanged with the parent. The parent's old element comes
to stand at the place left. What is below that place went no earlier than it across the hole, and
what is beside it goes no earlier because it was a child of the parent all along. So the element
that rises leads all that is below its new place. -/
theorem HoleAt.ascend (ho : IsOrder atMost) (h : HoleAt atMost a pos) (hpos : 0 < pos)
    (hx : a[pos]? = some x) (hp : a[(pos - 1) / 2]? = some y) (hyx : atMost y x = true) :
    HoleAt atMost ((a.setIfInBounds pos y).setIfInBounds ((pos - 1) / 2) x) ((pos - 1) / 2) ∧
      LeadsBelow atMost ((a.setIfInBounds pos y).setIfInBounds ((pos - 1) / 2) x)
        ((pos - 1) / 2) := by
  have hget := getElem?_exchange hx hp
  -- Another child of the parent goes no earlier than the parent's old element.
  have hsibling : ∀ {i s}, 0 < i → i ≠ pos → (i - 1) / 2 = (pos - 1) / 2 → a[i]? = some s →
      atMost s y = true := by
    intro i s hi hne hparent hs
    exact h.away hi hne (by omega) hs (hparent ▸ hp)
  refine ⟨⟨?_, ?_⟩, ?_⟩
  · intro i s p hi hne hparent hs hp'
    rw [hget, if_neg hne] at hs
    rw [hget, if_neg hparent] at hp'
    by_cases hi' : i = pos
    · exact absurd (congrArg (fun k => (k - 1) / 2) hi') hparent
    · rw [if_neg hi'] at hs
      split at hp'
      · next hpos' =>
        obtain rfl := Option.some.inj hp'
        exact h.across hi hpos' hpos hs hp
      · next hpos' => exact h.away hi hi' hpos' hs hp'
  · intro i s p hi hparent hq hs hp'
    rw [hget, if_neg (by omega), if_neg (by omega)] at hp'
    have hyp : atMost y p = true := h.away hq (by omega) (by omega) hp hp'
    rw [hget, if_neg (by omega)] at hs
    split at hs
    · obtain rfl := Option.some.inj hs
      exact hyp
    · next hne => exact ho.trans (hsibling hi hne hparent hs) hyp
  · intro i s x' hi hparent hs hx'
    rw [hget, if_pos rfl] at hx'
    obtain rfl := Option.some.inj hx'
    rw [hget, if_neg (by omega)] at hs
    split at hs
    · obtain rfl := Option.some.inj hs
      exact hyx
    · next hne => exact ho.trans (hsibling hi hne hparent hs) hyx

/-- A rise exchanges elements and does nothing else, so all of them are still there. -/
theorem rise_perm (atMost : α → α → Bool) (fuel pos : Nat) (a : Array α) :
    (rise atMost fuel pos a).toList.Perm a.toList := by
  induction fuel generalizing pos a with
  | zero => exact .refl _
  | succ fuel ih =>
      rw [rise]
      split
      · exact .refl _
      · dsimp only
        split
        · next x p hx hp =>
          split
          · exact .refl _
          · exact (ih _ _).trans (exchange_perm hx hp)
        · exact .refl _

/-- An element that rises to its place closes the hole. The rise stops at the root or under a parent
that the element goes no earlier than. Until then each exchange moves the hole up by
`HoleAt.ascend`, and a place is never farther from the root than its number says, so the steps
allowed are enough. -/
theorem ordered_rise (ho : IsOrder atMost) (h : HoleAt atMost a pos)
    (hbelow : LeadsBelow atMost a pos) (hfuel : pos ≤ fuel) :
    Ordered atMost (rise atMost fuel pos a) := by
  induction fuel generalizing pos a with
  | zero => exact .of_hole h hbelow fun hpos => by omega
  | succ fuel ih =>
      rw [rise]
      split
      · next hzero => exact .of_hole h hbelow fun hpos => by omega
      · next hpos =>
        have hpos := Nat.pos_of_ne_zero hpos
        dsimp only
        split
        · next x p hx hp =>
          split
          · next hxp =>
            refine .of_hole h hbelow fun _ hx' hp' => ?_
            rw [hx] at hx'
            rw [hp] at hp'
            rwa [← Option.some.inj hx', ← Option.some.inj hp']
          · next hxp =>
            obtain ⟨hhole, hleads⟩ :=
              h.ascend ho hpos hx hp ((ho.total x p).resolve_left hxp)
            exact ih hhole hleads (by omega)
        · next hnone => exact .of_hole h hbelow fun _ hx' hp' => absurd hp' (hnone _ _ hx')

/-! ### Sinking -/

/-- The hole moves down when its element is exchanged with the earliest one below it. The earliest
of the two elements below comes up into the hole. The other one goes no earlier than it, and neither
does anything below the place it came from, since both were in order across the hole. -/
theorem HoleAt.descend (h : HoleAt atMost a pos) (hc : c = 2 * pos + 1 ∨ c = 2 * pos + 2)
    (hx : a[pos]? = some x) (hv : a[c]? = some v)
    (hleft : ∀ s, a[2 * pos + 1]? = some s → atMost s v = true)
    (hright : ∀ s, a[2 * pos + 2]? = some s → atMost s v = true) :
    HoleAt atMost ((a.setIfInBounds pos v).setIfInBounds c x) c := by
  have hget := getElem?_exchange hx hv
  have hparent : (c - 1) / 2 = pos := by omega
  -- Below a place are the two places with twice its number and one or two more.
  have hearliest : ∀ {i s}, 0 < i → (i - 1) / 2 = pos → a[i]? = some s → atMost s v = true := by
    intro i s hi hp hs
    rcases (by omega : i = 2 * pos + 1 ∨ i = 2 * pos + 2) with rfl | rfl
    · exact hleft s hs
    · exact hright s hs
  refine ⟨?_, ?_⟩
  · intro i s p hi hne hp' hs hp
    rw [hget, if_neg hne] at hs
    rw [hget, if_neg hp'] at hp
    split at hs
    · next hpos =>
      obtain rfl := Option.some.inj hs
      subst hpos
      rw [if_neg (by omega)] at hp
      exact h.across (by omega) hparent hi hv hp
    · next hpos =>
      split at hp
      · next hchild =>
        obtain rfl := Option.some.inj hp
        exact hearliest hi hchild hs
      · next hchild => exact h.away hi hpos hchild hs hp
  · intro i s p hi hp' _ hs hp
    rw [hget, if_neg (by omega), if_neg (by omega)] at hs
    rw [hget, if_neg (by omega), if_pos hparent] at hp
    obtain rfl := Option.some.inj hp
    exact h.away hi (by omega) (by omega) hs (hp' ▸ hv)

/-- Going down exchanges elements only, as rising does. -/
theorem sink_perm (atMost : α → α → Bool) (fuel pos : Nat) (a : Array α) :
    (sink atMost fuel pos a).2.toList.Perm a.toList := by
  induction fuel generalizing pos a with
  | zero => exact .refl _
  | succ fuel ih =>
      rw [sink]
      split
      · next x l hx hl =>
        split
        · next r hr =>
          split
          · exact (ih _ _).trans (exchange_perm hx hr)
          · exact (ih _ _).trans (exchange_perm hx hl)
        · exact exchange_perm hx hl
      · exact .refl _

/-- The hole sinks to a place with nothing below it. It goes down beside the earlier of the two
elements below until there is none, which is where the size of the array is no more than twice the
place. The element itself is not compared to anything on the way, which is why a rise has to
follow. -/
theorem holeAt_sink (fuel : Nat) (ho : IsOrder atMost) (h : HoleAt atMost a pos)
    (hfuel : a.size ≤ pos + fuel) :
    HoleAt atMost (sink atMost fuel pos a).2 (sink atMost fuel pos a).1 ∧
      a.size ≤ 2 * (sink atMost fuel pos a).1 + 1 := by
  induction fuel generalizing pos a with
  | zero => exact ⟨h, by show a.size ≤ 2 * pos + 1; omega⟩
  | succ fuel ih =>
      have hself : ∀ {k : Nat} {v}, a[k]? = some v → ∀ s, a[k]? = some s → atMost s v = true := by
        intro k v hv s hs
        rw [Option.some.inj (hs.symm.trans hv)]
        exact ho.refl v
      rw [sink]
      split
      · next x l hx hl =>
        split
        · next r hr =>
          split
          · next hlr =>
            have hdown := h.descend (.inr rfl) hx hr
              (fun s hs => by rwa [Option.some.inj (hs.symm.trans hl)]) (hself hr)
            simpa using ih hdown (by simp; omega)
          · next hlr =>
            have hrl := (ho.total l r).resolve_left hlr
            have hdown := h.descend (.inl rfl) hx hl (hself hl)
              (fun s hs => by rwa [Option.some.inj (hs.symm.trans hr)])
            simpa using ih hdown (by simp; omega)
        · next hnone =>
          have hdown := h.descend (.inl rfl) hx hl (hself hl) fun s hs => by
            rw [hnone] at hs
            contradiction
          have := Array.getElem?_eq_none_iff.1 hnone
          exact ⟨hdown, by omega⟩
      · next hnone =>
        refine ⟨h, ?_⟩
        by_contra hsize
        obtain ⟨x, hx⟩ : ∃ x, a[pos]? = some x := ⟨_, Array.getElem?_eq_getElem (by omega)⟩
        obtain ⟨l, hl⟩ : ∃ l, a[2 * pos + 1]? = some l := ⟨_, Array.getElem?_eq_getElem (by omega)⟩
        exact hnone x l hx hl

/-! ### Heaps -/

/-- Nothing goes earlier than the root. By induction on the place: every place has its parent at a
smaller one. -/
theorem Ordered.atMost_root (ho : IsOrder atMost) (h : Ordered atMost a)
    (hx : a[0]? = some x) (hy : a[i]? = some y) : atMost y x = true := by
  induction i using Nat.strongRecOn generalizing y with
  | ind i ih =>
      rcases Nat.eq_zero_or_pos i with rfl | hi
      · rw [← Option.some.inj (hx.symm.trans hy)]
        exact ho.refl x
      · have hlt := (Array.getElem?_eq_some_iff.1 hy).1
        obtain ⟨p, hp⟩ : ∃ p, a[(i - 1) / 2]? = some p :=
          ⟨_, Array.getElem?_eq_getElem (by omega)⟩
        exact ho.trans (h i y p hi hy hp) (ih _ (by omega) hp)

/-- Where there is no element none comes before its parent. -/
theorem ordered_empty : Ordered atMost (empty : Heap α).items := by
  intro i x p _ hx
  simp [empty] at hx

/-- A heap with one more element has that element and those it had. -/
theorem push_perm (atMost : α → α → Bool) (h : Heap α) (x : α) :
    (h.push atMost x).items.toList.Perm (x :: h.items.toList) := by
  refine (rise_perm _ _ _ _).trans ?_
  rw [Array.toList_push]
  exact List.perm_append_singleton _ _

/-- A push adds the element pushed and keeps all others, because the rise that puts it into its
place loses nothing. -/
theorem mem_push {h : Heap α} : y ∈ (h.push atMost x).items ↔ y = x ∨ y ∈ h.items := by
  simpa using (push_perm atMost h x).mem_iff (a := y)

/-- One element more is in the heap after a push. So a heap is never empty after a push. -/
theorem size_push {h : Heap α} : (h.push atMost x).items.size = h.items.size + 1 := by
  simpa using (push_perm atMost h x).length_eq

/-- A heap stays in order under a push. The new element stands below all others, so that the array
is in order but for its place, and the rise takes it from there to where it fits. -/
theorem ordered_push (ho : IsOrder atMost) {h : Heap α} (hh : Ordered atMost h.items) (x : α) :
    Ordered atMost (h.push atMost x).items := by
  -- Nothing is below the new last place.
  have hlast : ∀ {i s}, (h.items.push x)[i]? = some s → i ≤ h.items.size := by
    intro i s hs
    have := (Array.getElem?_eq_some_iff.1 hs).1
    rw [Array.size_push] at this
    omega
  have hhole : HoleAt atMost (h.items.push x) h.items.size := by
    refine ⟨?_, ?_⟩
    · intro i s p hi hne hparent hs hp
      rw [Array.getElem?_push, if_neg hne] at hs
      rw [Array.getElem?_push, if_neg hparent] at hp
      exact hh i s p hi hs hp
    · intro i s p hi hparent _ hs _
      have := hlast hs
      omega
  have hleaf : LeadsBelow atMost (h.items.push x) h.items.size := by
    intro i s y hi hparent hs _
    have := hlast hs
    omega
  exact ordered_rise ho hhole hleaf (Nat.le_refl _)

/-- Taking out the first element of an array of at least two leaves the others, with the last one
in front. -/
theorem pop_set_perm {last first : α} (hback : a.back? = some last) (hfirst : a[0]? = some first)
    (hrest : a.pop ≠ #[]) : a.toList.Perm (first :: (a.pop.setIfInBounds 0 last).toList) := by
  obtain ⟨rest, rfl⟩ := Array.back?_eq_some_iff.1 hback
  rw [Array.pop_push] at hrest ⊢
  obtain ⟨list⟩ := rest
  cases list with
  | nil => contradiction
  | cons head mid =>
      obtain rfl : head = first := by simpa using hfirst
      simp

/-- The array from which the first element was taken is in order but for its root. All other places
hold what they held, and their parents do, unless that is the root. -/
theorem holeAt_pop_set (h : Ordered atMost a) (last : α) :
    HoleAt atMost (a.pop.setIfInBounds 0 last) 0 := by
  have hkept : ∀ {i s}, i ≠ 0 → (a.pop.setIfInBounds 0 last)[i]? = some s → a[i]? = some s := by
    intro i s hi hs
    rw [Array.getElem?_setIfInBounds, if_neg (Ne.symm hi), Array.getElem?_pop] at hs
    exact (Option.ite_none_right_eq_some.1 hs).2
  refine ⟨?_, fun _ _ hpos => absurd hpos (Nat.lt_irrefl 0)⟩
  intro i x p hi hne hparent hx hp
  exact h i x p hi (hkept hne hx) (hkept hparent hp)

/-- Only a heap without elements gives none. -/
theorem pop?_eq_none {h : Heap α} : h.pop? atMost = none ↔ h.items = #[] := by
  unfold pop?
  constructor
  · intro hnone
    split at hnone
    · dsimp only at hnone
      split at hnone <;> contradiction
    · next hno =>
      -- An array with a first element has a last one too.
      by_contra hne
      obtain ⟨last, hlast⟩ := Option.ne_none_iff_exists'.1 (mt Array.back?_eq_none_iff.1 hne)
      exact hno last _ hlast (Array.getElem?_eq_getElem (Array.size_pos_iff.2 hne))
  · intro hnil
    rw [hnil]
    rfl

/-- What a heap gives up goes no later than any of its elements; the others stay. The last element
is put at the root, goes down to the bottom and rises from there to its place. A heap of one element
is a case of its own, where nothing is left to be put anywhere. -/
theorem pop?_spec (ho : IsOrder atMost) {h rest : Heap α} (hh : Ordered atMost h.items)
    (hpop : h.pop? atMost = some (x, rest)) :
    Ordered atMost rest.items ∧ h.items.toList.Perm (x :: rest.items.toList) ∧
      ∀ y ∈ h.items, atMost y x = true := by
  suffices hmain : h.items[0]? = some x ∧ Ordered atMost rest.items ∧
      h.items.toList.Perm (x :: rest.items.toList) by
    obtain ⟨hroot, hordered, hperm⟩ := hmain
    refine ⟨hordered, hperm, fun y hy => ?_⟩
    obtain ⟨i, hi⟩ := Array.mem_iff_getElem?.1 hy
    exact hh.atMost_root ho hroot hi
  unfold pop? at hpop
  split at hpop
  · next last first hback hfirst =>
    dsimp only at hpop
    split at hpop
    · next hempty =>
      -- The only element is the last one, and nothing is left.
      obtain ⟨rfl, rfl⟩ := Prod.mk.inj (Option.some.inj hpop)
      obtain ⟨front, hfront⟩ := Array.back?_eq_some_iff.1 hback
      rw [hfront, Array.pop_push, Array.isEmpty_iff] at hempty
      subst hempty
      rw [hfront]
      exact ⟨rfl, ordered_empty, .refl _⟩
    · next hempty =>
      obtain ⟨rfl, rfl⟩ := Prod.mk.inj (Option.some.inj hpop)
      have hsunk := sink_perm atMost h.items.pop.size 0 (h.items.pop.setIfInBounds 0 last)
      obtain ⟨hhole, hleaf⟩ := holeAt_sink h.items.pop.size ho (holeAt_pop_set hh last) (by simp)
      refine ⟨hfirst, ordered_rise ho hhole ?_ (Nat.le_refl _), ?_⟩
      · intro i s y hi hparent hs _
        have hlt := (Array.getElem?_eq_some_iff.1 hs).1
        have hsize := hsunk.length_eq
        simp only [Array.length_toList] at hsize
        omega
      · exact (pop_set_perm hback hfirst (by simpa using hempty)).trans
          (((rise_perm _ _ _ _).trans hsunk).symm.cons _)
  · contradiction

section

variable {h rest : Heap α} (ho : IsOrder atMost) (hh : Ordered atMost h.items)
  (hpop : h.pop? atMost = some (x, rest))
include ho hh hpop

/-- What was in the heap is the element given up or still there. -/
theorem mem_of_pop? : y ∈ h.items ↔ y = x ∨ y ∈ rest.items := by
  obtain ⟨-, hperm, -⟩ := pop?_spec ho hh hpop
  simpa using hperm.mem_iff (a := y)

/-- One element fewer is in the heap after a pop. -/
theorem size_of_pop? : h.items.size = rest.items.size + 1 := by
  obtain ⟨-, hperm, -⟩ := pop?_spec ho hh hpop
  simpa using hperm.length_eq

end

end Multicast.Heap
