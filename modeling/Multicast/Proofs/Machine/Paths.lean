import Mathlib.Logic.Relation
import Multicast.Machine.Fabric

/-!
# `Multicast.Proofs.Machine.Paths`: paths over working links

`Grid.step_opposite` is the one fact about the geometry of links that the searches
use: the opposite link leads back, on a torus too. `Fabric.Joined` says that a path
over working links leads from one chip to another, and `Fabric.IsWalk` that a list
of hops is such a path.
-/

set_option autoImplicit false

namespace Multicast

namespace Grid

variable {g : Grid} {c n : Chip} {d : Direction}

/-- Going round a side of length `w` and back by the same change. -/
theorem emod_sub_emod {a b : Int} {w : Nat} (ha : 0 ≤ a) (haw : a < w) :
    ((a + b) % w - b) % w = a := by
  rw [Int.emod_sub_emod, Int.add_sub_cancel, Int.emod_eq_of_lt ha haw]

/-- An offset that leads somewhere leads to a chip of the grid, and the opposite offset leads back.
On a torus both coordinates go round their side and back; on a mesh neither is changed by more than
the offset says, so that the way back stays on it. -/
theorem mem_offset {o : Offset} (hc : g.contains c = true) (h : g.offset c o = some n) :
    g.contains n = true ∧ g.offset n ⟨-o.dx, -o.dy⟩ = some c := by
  obtain ⟨hx, hy⟩ := contains_iff.1 hc
  unfold offset at h ⊢
  -- On a torus positions are taken modulo the sides; on a mesh a step off the rim leads nowhere.
  cases hw : g.wraps with
  | true =>
      simp only [hw, if_true, Option.some.injEq] at h ⊢
      subst h
      have hnx := Int.emod_nonneg ((c.x : Int) + o.dx) (show (g.width : Int) ≠ 0 by omega)
      have hny := Int.emod_nonneg ((c.y : Int) + o.dy) (show (g.height : Int) ≠ 0 by omega)
      have hlx := Int.emod_lt_of_pos ((c.x : Int) + o.dx) (show 0 < (g.width : Int) by omega)
      have hly := Int.emod_lt_of_pos ((c.y : Int) + o.dy) (show 0 < (g.height : Int) by omega)
      refine ⟨contains_iff.2 ⟨by show Int.toNat _ < _; omega, by show Int.toNat _ < _; omega⟩, ?_⟩
      simp only [Int.toNat_of_nonneg hnx, Int.toNat_of_nonneg hny, ← Int.sub_eq_add_neg]
      -- Column and row each go round their side and back.
      rw [emod_sub_emod (by omega) (by omega), emod_sub_emod (by omega) (by omega)]
      rfl
  | false =>
      simp only [hw, Bool.false_eq_true, if_false] at h ⊢
      split at h
      · next hin =>
        obtain rfl := Option.some.inj h
        refine ⟨contains_iff.2 ⟨by show Int.toNat _ < _; omega, by show Int.toNat _ < _; omega⟩, ?_⟩
        have hx' : ((((c.x : Int) + o.dx).toNat : Int) + -o.dx) = c.x := by omega
        have hy' : ((((c.y : Int) + o.dy).toNat : Int) + -o.dy) = c.y := by omega
        simp only [hx', hy']
        rw [if_pos ⟨by omega, by omega, by omega, by omega⟩]
        rfl
      · contradiction

/-- The opposite link leads back. -/
theorem step_opposite (hc : g.contains c = true) (h : g.step c d = some n) :
    g.contains n = true ∧ g.step n d.opposite = some c := by
  obtain ⟨hn, hback⟩ := mem_offset hc h
  refine ⟨hn, ?_⟩
  rw [step, Direction.vector_opposite]
  exact hback

/-- The grid has as many cells as its sides make. -/
theorem length_cells (g : Grid) : g.cells.length = g.size := by
  simp [cells, size, List.map_const']

end Grid

namespace Fabric

variable {f : Fabric} {a b c n : Chip} {d : Direction}

/-- A working link leads from one chip to another. -/
def Linked (f : Fabric) (a b : Chip) : Prop :=
  ∃ d, f.follow? a d = some b

/-- A path over working links leads from one chip to another. -/
def Joined (f : Fabric) : Chip → Chip → Prop :=
  Relation.ReflTransGen f.Linked

/-- Hops that follow working links from one chip to another. -/
def IsWalk (f : Fabric) : Chip → List Hop → Chip → Prop
  | a, [], b => a = b
  | a, hop :: rest, b => f.follow? a hop.link = some hop.chip ∧ f.IsWalk hop.chip rest b

/-- A walk goes on over one more working link. -/
theorem IsWalk.snoc {hops : List Hop} (h : f.IsWalk a hops b) (hd : f.follow? b d = some c) :
    f.IsWalk a (hops ++ [⟨d, c⟩]) c := by
  induction hops generalizing a with
  | nil =>
      obtain rfl : a = b := h
      exact ⟨hd, rfl⟩
  | cons hop rest ih => exact ⟨h.1, ih h.2⟩

/-- Two walks, the second from the end of the first, are one. -/
theorem IsWalk.append {hops rest : List Hop} (h : f.IsWalk a hops b) (hrest : f.IsWalk b rest c) :
    f.IsWalk a (hops ++ rest) c := by
  induction hops generalizing a with
  | nil =>
      obtain rfl : a = b := h
      exact hrest
  | cons hop hops ih => exact ⟨h.1, ih h.2⟩

/-- The ends of a walk are joined. -/
theorem IsWalk.joined {hops : List Hop} (h : f.IsWalk a hops b) : f.Joined a b := by
  induction hops generalizing a with
  | nil => exact Eq.subst (motive := f.Joined a) h .refl
  | cons hop rest ih => exact (ih h.2).head ⟨hop.link, h.1⟩

/-- The end of a walk is the chip of a hop. -/
theorem IsWalk.exists_chip {hops : List Hop} (h : f.IsWalk a hops b) (hne : hops ≠ []) :
    ∃ hop ∈ hops, hop.chip = b := by
  induction hops generalizing a with
  | nil => contradiction
  | cons hop rest ih =>
      cases rest with
      | nil => exact ⟨hop, List.mem_singleton_self _, h.2⟩
      | cons next rest =>
          obtain ⟨x, hx, hxb⟩ := ih h.2 (List.cons_ne_nil _ _)
          exact ⟨x, List.mem_cons_of_mem _ hx, hxb⟩

/-- Both ends of a working link are working chips. -/
theorem isChip_of_follow? (h : f.follow? a d = some b) :
    f.isChip a = true ∧ f.isChip b = true := by
  obtain ⟨ha, -, -, -, hb⟩ := follow?_eq_some_iff.1 h
  exact ⟨ha, hb⟩

/-- A working chip is on the grid. -/
theorem contains_of_isChip (h : f.isChip c = true) : f.contains c = true :=
  (isChip_iff.1 h).1

/-- The hops of a walk stay on the grid. -/
theorem IsWalk.contains {hops : List Hop} (h : f.IsWalk a hops b) :
    ∀ hop ∈ hops, f.contains hop.chip = true := by
  induction hops generalizing a with
  | nil => simp
  | cons hop rest ih =>
      exact List.forall_mem_cons.2 ⟨contains_of_isChip (isChip_of_follow? h.1).2, ih h.2⟩

/-- A path that goes anywhere ends on a working chip. -/
theorem Joined.isChip (h : f.Joined a b) (ha : f.isChip a = true) : f.isChip b = true := by
  cases h with
  | refl => exact ha
  | tail _ hd => exact hd.elim fun _ hd => (isChip_of_follow? hd).2

/-- A path does not leave the grid. -/
theorem Joined.contains (h : f.Joined a b) (ha : f.contains a = true) : f.contains b = true := by
  cases h with
  | refl => exact ha
  | tail _ hd => exact hd.elim fun _ hd => contains_of_isChip (isChip_of_follow? hd).2

end Fabric

end Multicast
