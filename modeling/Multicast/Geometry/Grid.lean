import Multicast.Geometry.Ring

/-!
# `Multicast.Geometry.Grid`: rectangles of chips, with or without wrapping

A grid is a rectangle of chips. Following a link either stops at the edge or,
on a torus, comes back in on the far side. Nothing here knows which chips and
links work.

Stepping on a torus takes remainders by the sides, so it means something only
when both sides are positive: that is `Grid.IsSteppable`.
-/

set_option autoImplicit false

namespace Multicast

/-- A rectangle of `width` columns and `height` rows; `wraps` joins its opposite edges. -/
structure Grid where
  width : Nat
  height : Nat
  wraps : Bool
deriving DecidableEq, Inhabited

namespace Grid

/-- Whether a chip lies in the rectangle. -/
def contains (g : Grid) (c : Chip) : Bool :=
  decide (c.x < g.width) && decide (c.y < g.height)

/-- Stepping is defined: a torus has no empty side. -/
def IsSteppable (g : Grid) : Prop :=
  g.wraps = true → 0 < g.width ∧ 0 < g.height

instance (g : Grid) : Decidable g.IsSteppable :=
  inferInstanceAs (Decidable (g.wraps = true → 0 < g.width ∧ 0 < g.height))

/-- The chip at an offset from another, or `none` where that leaves a grid with edges. -/
def offset (g : Grid) (c : Chip) (o : Offset) : Option Chip :=
  let x := (c.x : Int) + o.dx
  let y := (c.y : Int) + o.dy
  if g.wraps then
    some ⟨(x % g.width).toNat, (y % g.height).toNat⟩
  else if 0 ≤ x ∧ x < g.width ∧ 0 ≤ y ∧ y < g.height then
    some ⟨x.toNat, y.toNat⟩
  else
    none

/-- The chip a link leads to. -/
def step (g : Grid) (c : Chip) (d : Direction) : Option Chip :=
  g.offset c ⟨d.vector.1, d.vector.2⟩

/-- The shortest vector between two chips. -/
def vector (g : Grid) (source target : Chip) : HopVector :=
  if g.wraps then HopVector.around source target g.width g.height
  else HopVector.direct source target

/-- The number of hops between two chips when every link works. -/
def distance (g : Grid) (source target : Chip) : Nat :=
  (g.vector source target).length

/-- The number of chips in the rectangle. -/
def size (g : Grid) : Nat :=
  g.width * g.height

/-- Every chip of the rectangle, in the order of chips. -/
def cells (g : Grid) : List Chip :=
  (List.range g.width).flatMap fun x => (List.range g.height).map fun y => ⟨x, y⟩

/-- Goes through the chips of the rectangle, in the order of chips. -/
def foldCells {β : Type} (g : Grid) (step : β → Chip → β) (start : β) : β :=
  (List.range g.width).foldl (fun b x =>
    (List.range g.height).foldl (fun b y => step b ⟨x, y⟩) b) start

/-- A chip is in the rectangle when its column and its row are. -/
theorem contains_iff {g : Grid} {c : Chip} :
    g.contains c = true ↔ c.x < g.width ∧ c.y < g.height := by
  simp [contains]

/-- The cells listed are the chips of the rectangle, all of them. -/
theorem mem_cells {g : Grid} {c : Chip} : c ∈ g.cells ↔ g.contains c = true := by
  cases c
  simp [cells, contains_iff]

/-- Going through the rectangle column by column is going through the list of its cells, which is
never made for it. -/
theorem foldCells_eq {β : Type} (g : Grid) (step : β → Chip → β) (start : β) :
    g.foldCells step start = g.cells.foldl step start := by
  simp only [foldCells, cells, List.foldl_flatMap, List.foldl_map]

end Grid

end Multicast
