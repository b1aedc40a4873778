import Multicast.Proofs.Geometry.Distance

/-!
# `Multicast.Proofs.Geometry.Words`: vectors in words of 32 bits

The components of a `HopVector` are numbers without bound, and what is proved of vectors is
proved of those. A machine keeps them in words of 32 bits: a change of column or row is cut down
to 32 bits before the median is taken from it, and so is each difference after. Cut down, a change
of `2 ^ 31` or more turns round, and the path leads the other way, off a mesh.

`Grid.wordVector` is the vector computed in this way. On a grid with sides below `2 ^ 31` no
change between its chips is cut (`wayRound_spec` bounds them on a torus), a median taken away
makes no component larger than the changes were (`HopVector.wordsOfOffset_eq`), and the hops of a
vector can be counted in 32 bits too. So both vectors are the same there
(`Grid.IsNarrow.fitsWords`). Nothing is said about wider grids in words.
-/

set_option autoImplicit false

namespace Multicast

namespace HopVector

/-- A number cut down to 32 bits, and read with its sign. -/
def word (n : Int) : Int :=
  n.bmod (2 ^ 32)

/-- The vector `ofOffset` makes, with every number cut down to 32 bits. -/
def wordsOfOffset (dx dy : Int) : HopVector :=
  let m := median (word dx) (word dy) 0
  ⟨word (word dx - m), word (word dy - m), word (0 - m)⟩

variable {n dx dy : Int}

/-- Below half of their range, words hold every number with its sign. -/
theorem word_eq (h : n.natAbs < 2 ^ 31) : word n = n :=
  Int.bmod_eq_of_le_mul_two (by omega) (by omega)

/-- The median of two changes and zero lies between zero and one of them, so no difference that is
taken is larger than the larger change. -/
theorem wordsOfOffset_eq (hx : dx.natAbs < 2 ^ 31) (hy : dy.natAbs < 2 ^ 31) :
    wordsOfOffset dx dy = ofOffset dx dy := by
  have hm : (dx - median dx dy 0).natAbs < 2 ^ 31 ∧ (dy - median dx dy 0).natAbs < 2 ^ 31 ∧
      (0 - median dx dy 0).natAbs < 2 ^ 31 := by
    unfold median
    omega
  rw [wordsOfOffset, word_eq hx, word_eq hy, word_eq hm.1, word_eq hm.2.1, word_eq hm.2.2]
  rfl

/-- Two of the components are left of a vector, so its hops are at most the two changes together. -/
theorem length_ofOffset_le (dx dy : Int) : (ofOffset dx dy).length ≤ dx.natAbs + dy.natAbs := by
  show (⟨dx, dy⟩ : Offset).hops ≤ _
  rw [Offset.hops_eq]
  dsimp only
  omega

end HopVector

namespace Grid

variable {g : Grid}

/-- The vector between two chips, computed in words of 32 bits. The way round a torus is chosen
before anything is cut down, in numbers that are large enough for it. -/
def wordVector (g : Grid) (source target : Chip) : HopVector :=
  if g.wraps then
    let way := HopVector.wayRound source target g.width g.height
    HopVector.wordsOfOffset way.dx way.dy
  else
    HopVector.wordsOfOffset ((target.x : Int) - source.x) ((target.y : Int) - source.y)

/-- Words of 32 bits are enough for the vectors between the chips of a grid, and for the number of
their hops. -/
def FitsWords (g : Grid) : Prop :=
  ∀ a b, g.contains a = true → g.contains b = true →
    g.wordVector a b = g.vector a b ∧ g.distance a b < 2 ^ 32

/-- A grid whose sides are below `2 ^ 31`. -/
def IsNarrow (g : Grid) : Prop :=
  g.width < 2 ^ 31 ∧ g.height < 2 ^ 31

instance (g : Grid) : Decidable g.IsNarrow :=
  inferInstanceAs (Decidable (g.width < 2 ^ 31 ∧ g.height < 2 ^ 31))

/-- On a narrow grid no two chips are as far apart as words cannot tell. -/
theorem IsNarrow.fitsWords (h : g.IsNarrow) : g.FitsWords := by
  intro a b ha hb
  obtain ⟨hwidth, hheight⟩ := h
  -- Both kinds of grid make the vector of an offset shorter than the sides.
  obtain ⟨o, hword, hvector, hdx, hdy⟩ : ∃ o : Offset,
      g.wordVector a b = HopVector.wordsOfOffset o.dx o.dy ∧
        g.vector a b = HopVector.ofOffset o.dx o.dy ∧ o.dx.natAbs < 2 ^ 31 ∧
          o.dy.natAbs < 2 ^ 31 := by
    unfold wordVector vector
    split
    · next hw =>
      obtain ⟨-, hdx, hdy⟩ := wayRound_spec hw ha hb rfl
      exact ⟨⟨_, _⟩, rfl, rfl, hdx.trans hwidth, hdy.trans hheight⟩
    · obtain ⟨hax, hay⟩ := contains_iff.1 ha
      obtain ⟨hbx, hby⟩ := contains_iff.1 hb
      refine ⟨⟨(b.x : Int) - a.x, (b.y : Int) - a.y⟩, rfl, rfl, ?_, ?_⟩ <;> dsimp only <;> omega
  have hlength := HopVector.length_ofOffset_le o.dx o.dy
  rw [distance, hword, hvector]
  exact ⟨HopVector.wordsOfOffset_eq hdx hdy, by omega⟩

/-- On a mesh that is too wide a path sets out the other way. -/
example : (Grid.mk 4294967295 1 false).wordVector ⟨0, 0⟩ ⟨4294967290, 0⟩ = ⟨-6, 0, 0⟩ := by
  decide

end Grid

end Multicast
