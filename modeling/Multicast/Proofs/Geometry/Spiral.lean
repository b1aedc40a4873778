import Multicast.Proofs.Geometry.Ring

/-!
# `Multicast.Proofs.Geometry.Spiral`: one cursor over all rings

`Ring.disc` starts every ring from a corner of its own. Here one cursor makes the whole
tour: it notes where it is before each step, goes along the six sides of a ring, and from
where that has left it one step south to the next (`Ring.spiral`).

The sides of a ring add up to nothing, so each ring closes (`cornerAfter_sides`), and the step
south leads from the southern corner of a ring to that of the next one. So the cursor notes
the offsets of the disc in their order (`spiral_eq_disc`), and what is known of the disc
says what it has noted: every offset of no more hops than the radius once, the nearer ones
first, each ring in its place (`spiral_exact`).
-/

set_option autoImplicit false

namespace Multicast

/-- To advance by one step more is to advance, then to take one step. -/
theorem Offset.advance_succ (start step : Offset) (n : Nat) :
    start.advance step (n + 1) = (start.advance step n).advance step 1 := by
  simp only [advance, Nat.cast_add, Nat.cast_one, Int.add_mul, Int.add_assoc]

namespace Ring

/-- A cursor on its tour: where it is, and where it was when it noted it. -/
structure Cursor where
  place : Offset
  noted : List Offset

namespace Cursor

/-- Notes the place and takes a step. -/
def step (c : Cursor) (side : Offset) : Cursor :=
  ⟨c.place.advance side 1, c.noted ++ [c.place]⟩

/-- Takes `r` steps along a side. -/
def along (r : Nat) (c : Cursor) (side : Offset) : Cursor :=
  (List.range r).foldl (fun c _ => c.step side) c

/-- Goes south to the ring of radius `r` and once round it. -/
def round (c : Cursor) (r : Nat) : Cursor :=
  sides.foldl (along r) { c with place := c.place.advance ⟨0, -1⟩ 1 }

/-- A tour starts at the centre, which is noted first. -/
def start : Cursor :=
  ⟨⟨0, 0⟩, [⟨0, 0⟩]⟩

end Cursor

/-- What a cursor notes on a tour of so many rings. -/
def spiral (radius : Nat) : List Offset :=
  ((List.range radius).foldl (fun c r => c.round (r + 1)) Cursor.start).noted

/-- Where a walk along some sides comes to. -/
def cornerAfter (r : Nat) (corner : Offset) (l : List Offset) : Offset :=
  l.foldl (fun corner side => corner.advance side r) corner

/-- The six sides of a ring lead back to where they start. -/
theorem cornerAfter_sides (r : Nat) (corner : Offset) : cornerAfter r corner sides = corner := by
  obtain ⟨x, y⟩ := corner
  simp only [cornerAfter, sides, List.foldl_cons, List.foldl_nil, Offset.advance, Offset.mk.injEq]
  omega

namespace Cursor

/-- On a side all places are noted but the one it leads to. -/
theorem along_eq (r : Nat) (c : Cursor) (side : Offset) : c.along r side =
    ⟨c.place.advance side r, c.noted ++ (List.range r).map (c.place.advance side)⟩ := by
  induction r with
  | zero => simp [along, Offset.advance]
  | succ r ih =>
      have hlast : c.along (r + 1) side = (c.along r side).step side := by
        rw [along, along, List.range_succ, List.foldl_append]
        rfl
      rw [hlast, ih, step, ← Offset.advance_succ, List.range_succ, List.map_append,
        ← List.append_assoc]
      rfl

/-- The sides are noted as they are walked. -/
theorem foldl_along (r : Nat) (c : Cursor) (l : List Offset) :
    l.foldl (along r) c = ⟨cornerAfter r c.place l, c.noted ++ walk r c.place l⟩ := by
  induction l generalizing c with
  | nil => simp [cornerAfter, walk]
  | cons side rest ih =>
      rw [List.foldl_cons, ih, along_eq, walk, ← List.append_assoc]
      rfl

/-- Round a ring the cursor comes back to where it went south to. -/
theorem round_eq (c : Cursor) (r : Nat) : c.round r =
    ⟨c.place.advance ⟨0, -1⟩ 1, c.noted ++ walk r (c.place.advance ⟨0, -1⟩ 1) sides⟩ := by
  rw [round, foldl_along, cornerAfter_sides]

/-- After so many rings the cursor is at the southern corner of the last one and has noted the
disc. -/
theorem foldl_round (radius : Nat) :
    (List.range radius).foldl (fun c r => c.round (r + 1)) start =
      ⟨⟨0, -radius⟩, disc radius⟩ := by
  induction radius with
  | zero => rfl
  | succ radius ih =>
      have hsouth : (⟨0, -radius⟩ : Offset).advance ⟨0, -1⟩ 1 = ⟨0, -(radius + 1 : Nat)⟩ := by
        simp only [Offset.advance, Offset.mk.injEq]
        omega
      rw [List.range_succ, List.foldl_append, ih, List.foldl_cons, List.foldl_nil, round_eq, hsouth,
        disc_succ]
      rfl

end Cursor

/-- The cursor of the spiral visits the disc in the order of its rings. -/
theorem spiral_eq_disc (radius : Nat) : spiral radius = disc radius := by
  rw [spiral, Cursor.foldl_round]

/-- The disc of a radius is what one cursor notes that goes round ring after ring. It lists the
offsets of no more hops than the radius, each of them once, with no change of column or row beyond
the radius. They are as many as `discSize` says, come in the order of their hops, and the ring of
each radius fills the places from the size of the disc inside it up to that of its own disc. -/
theorem spiral_exact (radius : Nat) :
    spiral radius = disc radius ∧
    (disc radius).length = discSize radius ∧
    (disc radius).Nodup ∧
    (∀ o, o ∈ disc radius ↔ o.hops ≤ radius) ∧
    (∀ o ∈ disc radius, o.dx.natAbs ≤ radius ∧ o.dy.natAbs ≤ radius) ∧
    ((disc radius).Pairwise fun o o' => o.hops ≤ o'.hops) ∧
    ∀ i o, (disc radius)[i]? = some o →
      ∀ r, o.hops = r + 1 ↔ discSize r ≤ i ∧ i < discSize (r + 1) := by
  refine ⟨spiral_eq_disc radius, length_disc radius, nodup_disc radius, fun _ => mem_disc,
    fun o ho => (Offset.hops_le_iff.1 (mem_disc.1 ho)).1, pairwise_disc radius,
    fun i o ho r => ?_⟩
  have hinside := hops_le_iff_lt_discSize ho r
  have hupto := hops_le_iff_lt_discSize ho (r + 1)
  omega

end Ring

end Multicast
