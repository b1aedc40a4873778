import Multicast.Proofs.Geometry.Distance

/-!
# `Multicast.Proofs.Geometry.Ring`: rings hold the offsets by their hops

A ring is walked side by side. Where a side has got to after some steps is written out
in `mem_walk`, and by the norm of an offset the six sides hold just the offsets of as
many hops as the ring is large (`mem_offsets`). So a disc holds the offsets of no more
hops than its radius (`mem_disc`), and none of them comes after one of more hops
(`pairwise_disc`).

A side does not come back to where it was, and no two sides of a ring meet, so a ring
holds no offset twice (`nodup_offsets`) and neither does a disc (`nodup_disc`). A larger
disc begins with the smaller one (`disc_prefix`). Since `discSize` is how many offsets a
disc has, the place of an offset tells its hops (`hops_le_iff_lt_discSize`).
-/

set_option autoImplicit false

namespace Multicast.Ring

variable {o corner side : Offset} {rest : List Offset} {r radius : Nat}

/-- An offset of a walk is so many steps along the first side, or on the rest of the walk. -/
theorem mem_walk : o ∈ walk r corner (side :: rest) ↔
    (∃ i < r, o.dx = corner.dx + i * side.dx ∧ o.dy = corner.dy + i * side.dy) ∨
      o ∈ walk r (corner.advance side r) rest := by
  obtain ⟨dx, dy⟩ := o
  simp only [walk, Offset.advance, List.mem_append, List.mem_map, List.mem_range, Offset.mk.injEq,
    @eq_comm _ dx, @eq_comm _ dy]

/-- A ring holds the offsets that take as many hops as it is large. -/
theorem mem_offsets (hr : 0 < r) : o ∈ offsets r ↔ o.hops = r := by
  have hnil (corner : Offset) : o ∉ walk r corner [] := List.not_mem_nil
  simp only [offsets, sides, mem_walk, Offset.advance, hnil, or_false]
  constructor
  · rw [Offset.hops_eq]
    rintro (⟨i, hi, hx, hy⟩ | ⟨i, hi, hx, hy⟩ | ⟨i, hi, hx, hy⟩ | ⟨i, hi, hx, hy⟩ |
      ⟨i, hi, hx, hy⟩ | ⟨i, hi, hx, hy⟩) <;> omega
  · intro h
    obtain ⟨⟨hx, hy⟩, hd⟩ := Offset.hops_le_iff.1 (Nat.le_of_eq h)
    have hfull : o.dx.natAbs = r ∨ o.dy.natAbs = r ∨ (o.dx - o.dy).natAbs = r := by
      rw [Offset.hops_eq] at h
      omega
    clear h
    -- Going round, the full one of the two changes and their difference is a new one on each side.
    rcases Int.lt_or_le o.dx 0 with hwest | heast <;> rcases Int.lt_or_le 0 o.dy with hnorth | hsouth
    · exact .inr (.inr (.inr (.inl ⟨o.dx.natAbs, by omega, by omega, by omega⟩)))
    · obtain hlow | hlow : o.dx = -r ∧ -r < o.dy ∨ o.dy = -r := by omega
      · exact .inr (.inr (.inr (.inr (.inl ⟨o.dy.natAbs, by omega, by omega, by omega⟩))))
      · exact .inr (.inr (.inr (.inr (.inr ⟨(r + o.dx).natAbs, by omega, by omega, by omega⟩))))
    · obtain hhigh | hhigh | hhigh : (o.dx = r ∧ o.dy < r) ∨ (o.dy = r ∧ 0 < o.dx) ∨
          (o.dy = r ∧ o.dx = 0) := by omega
      · exact .inr (.inl ⟨o.dy.natAbs, by omega, by omega, by omega⟩)
      · exact .inr (.inr (.inl ⟨(r - o.dx).natAbs, by omega, by omega, by omega⟩))
      · exact .inr (.inr (.inr (.inl ⟨o.dx.natAbs, by omega, by omega, by omega⟩)))
    · rcases Int.lt_or_le o.dy 0 with hdown | hlevel
      · exact .inl ⟨o.dx.natAbs, by omega, by omega, by omega⟩
      · exact .inr (.inl ⟨o.dy.natAbs, by omega, by omega, by omega⟩)

/-- A disc holds the offsets that take no more hops than its radius. -/
theorem mem_disc : o ∈ disc radius ↔ o.hops ≤ radius := by
  rw [disc, List.mem_cons, List.mem_flatMap]
  constructor
  · rintro (rfl | ⟨r, hr, ho⟩)
    · exact Nat.zero_le _
    · rw [(mem_offsets (Nat.succ_pos r)).1 ho]
      exact List.mem_range.1 hr
  · intro h
    rcases Nat.eq_zero_or_pos o.hops with hzero | hpos
    · exact .inl (Offset.hops_eq_zero.1 hzero)
    · right
      refine ⟨o.hops - 1, List.mem_range.2 (by omega), ?_⟩
      rw [Nat.sub_add_cancel hpos, mem_offsets hpos]

/-- The nearer offsets of a disc come first. -/
theorem pairwise_disc (radius : Nat) : (disc radius).Pairwise fun o o' => o.hops ≤ o'.hops := by
  rw [disc, List.pairwise_cons, List.pairwise_flatMap]
  refine ⟨fun o _ => Nat.zero_le _, fun r _ => ?_, ?_⟩
  · -- On one ring all take the same number of hops.
    refine List.pairwise_of_forall_mem_list fun o ho o' ho' => ?_
    rw [(mem_offsets (Nat.succ_pos r)).1 ho, (mem_offsets (Nat.succ_pos r)).1 ho']
  · refine List.pairwise_lt_range.imp fun {r r'} hlt o ho o' ho' => ?_
    rw [(mem_offsets (Nat.succ_pos r)).1 ho, (mem_offsets (Nat.succ_pos r')).1 ho']
    omega

/-! ### Every offset once -/

/-- Stepping along a side that leads somewhere, a walk comes to no offset twice if the rest of it
keeps off that side. -/
theorem nodup_walk (hside : side ≠ ⟨0, 0⟩)
    (hoff : ∀ i < r, corner.advance side i ∉ walk r (corner.advance side r) rest)
    (hrest : (walk r (corner.advance side r) rest).Nodup) :
    (walk r corner (side :: rest)).Nodup := by
  refine List.nodup_append.2 ⟨List.nodup_range.map ?_, hrest, ?_⟩
  · intro i j heq
    obtain ⟨hx, hy⟩ := Offset.mk.inj heq
    -- In one of its changes the side moves on, and there the steps are told apart.
    by_contra hij
    have hx : (i : Int) * side.dx = j * side.dx := by omega
    have hy : (i : Int) * side.dy = j * side.dy := by omega
    have hzero : ∀ {k : Int}, (i : Int) * k = j * k → k = 0 := fun {k} hk => by
      by_contra hne
      exact hij (Int.ofNat_inj.1 (Int.eq_of_mul_eq_mul_right hne hk))
    obtain ⟨dx, dy⟩ := side
    exact hside (congrArg₂ Offset.mk (hzero hx) (hzero hy))
  · rintro o ho o' ho' rfl
    obtain ⟨i, hi, rfl⟩ := List.mem_map.1 ho
    exact hoff i (List.mem_range.1 hi) ho'

/-- The six sides of a ring hold different offsets. -/
theorem nodup_offsets (r : Nat) : (offsets r).Nodup := by
  have hnil (corner o : Offset) : o ∉ walk r corner [] := List.not_mem_nil
  refine nodup_walk (by decide) ?_ <| nodup_walk (by decide) ?_ <| nodup_walk (by decide) ?_ <|
    nodup_walk (by decide) ?_ <| nodup_walk (by decide) ?_ <| nodup_walk (by decide) ?_ .nil
  -- Each side is compared with all behind it; the last one has none.
  all_goals
    intro i hi
    simp only [mem_walk, Offset.advance, hnil, or_false, not_or, not_exists, not_and,
      not_false_eq_true]
  all_goals
    and_intros
    all_goals
      intros
      omega

/-- A disc is the next smaller one and a ring around it. -/
theorem disc_succ (radius : Nat) : disc (radius + 1) = disc radius ++ offsets (radius + 1) := by
  simp only [disc, List.range_succ, List.flatMap_append, List.flatMap_singleton, List.cons_append]

/-- A disc holds no offset twice: what a ring holds takes more hops than what it is put around. -/
theorem nodup_disc (radius : Nat) : (disc radius).Nodup := by
  induction radius with
  | zero => simp [disc]
  | succ radius ih =>
      rw [disc_succ]
      refine List.nodup_append.2 ⟨ih, nodup_offsets _, ?_⟩
      rintro o ho o' ho' rfl
      have hle := mem_disc.1 ho
      have heq := (mem_offsets (Nat.succ_pos radius)).1 ho'
      omega

/-! ### The places of a disc -/

/-- A walk along sides of one length has that many offsets for each of its steps. -/
theorem length_walk (r : Nat) (corner : Offset) (l : List Offset) :
    (walk r corner l).length = l.length * r := by
  induction l generalizing corner with
  | nil => simp [walk]
  | cons side rest ih =>
      rw [walk, List.length_append, List.length_map, List.length_range, ih, List.length_cons,
        Nat.succ_mul, Nat.add_comm]

/-- A ring has six sides, each as long as the radius. -/
theorem length_offsets (r : Nat) : (offsets r).length = 6 * r :=
  length_walk r _ sides

/-- A ring adds six times its radius. -/
theorem discSize_succ (radius : Nat) :
    discSize (radius + 1) = discSize radius + 6 * (radius + 1) := by
  simp only [discSize, Nat.mul_add, Nat.add_mul]
  omega

/-- Discs of smaller radius are no larger. -/
theorem discSize_le_discSize (h : r ≤ radius) : discSize r ≤ discSize radius :=
  Nat.add_le_add_left (Nat.mul_le_mul (Nat.mul_le_mul_left 3 h) (Nat.succ_le_succ h)) 1

/-- A disc has as many offsets as its size says: one in the middle, and six more in each ring than
in the one before. -/
theorem length_disc (radius : Nat) : (disc radius).length = discSize radius := by
  induction radius with
  | zero => rfl
  | succ radius ih => rw [disc_succ, List.length_append, length_offsets, ih, discSize_succ]

/-- A larger disc begins with a smaller one. -/
theorem disc_prefix (h : r ≤ radius) : disc r <+: disc radius := by
  induction radius, h using Nat.le_induction with
  | base => exact List.prefix_rfl
  | succ radius _ ih =>
      rw [disc_succ]
      exact ih.trans (List.prefix_append ..)

/-- As many offsets of a disc come first as a smaller disc has, and they are the nearer ones. -/
theorem hops_le_iff_lt_discSize {i : Nat} (h : (disc radius)[i]? = some o) (r : Nat) :
    o.hops ≤ r ↔ i < discSize r := by
  have hlt : i < discSize radius := length_disc radius ▸ (List.getElem?_eq_some_iff.1 h).1
  rcases Nat.le_total r radius with hle | hle
  · obtain ⟨rest, hrest⟩ := disc_prefix hle
    rw [← mem_disc, ← length_disc]
    constructor
    · intro ho
      obtain ⟨j, hj, hget⟩ := List.mem_iff_getElem.1 ho
      -- The offset stands at one place only, in the smaller disc and in the larger one.
      have hsame : (disc radius)[j]? = (disc radius)[i]? := by
        rw [h, ← hrest, List.getElem?_append_left hj, List.getElem?_eq_getElem hj, hget]
      have hbound : j < (disc radius).length := hrest ▸ Nat.lt_of_lt_of_le hj (by simp)
      exact (List.getElem?_inj hbound (nodup_disc radius)).1 hsame ▸ hj
    · intro hi
      rw [← hrest, List.getElem?_append_left hi] at h
      exact List.mem_of_getElem? h
  · have hmem := mem_disc.1 (List.mem_of_getElem? h)
    have := discSize_le_discSize hle
    omega

end Multicast.Ring
