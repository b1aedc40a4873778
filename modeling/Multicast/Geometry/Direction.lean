import Multicast.Geometry.Chip

/-!
# `Multicast.Geometry.Direction`: the six links of a chip

A chip has six links: two along each of the columns, the rows and the rising
diagonal. Links are numbered counter-clockwise from east, so the link that
comes back over the same wire is three further on.
-/

set_option autoImplicit false

namespace Multicast

/-- A link of a chip, named by the compass direction it leaves in. -/
inductive Direction where
  | east
  | northEast
  | north
  | west
  | southWest
  | south
deriving DecidableEq, Inhabited

namespace Direction

/-- Every link, in the order of its number. -/
def all : List Direction :=
  [east, northEast, north, west, southWest, south]

/-- The number of a link, counted counter-clockwise from east. -/
def linkId : Direction → Nat
  | east => 0
  | northEast => 1
  | north => 2
  | west => 3
  | southWest => 4
  | south => 5

/-- The link with a given number; there are six. -/
def ofLinkId? (n : Nat) : Option Direction :=
  all[n]?

/-- The link that comes back: three further round. -/
def opposite : Direction → Direction
  | east => west
  | northEast => southWest
  | north => south
  | west => east
  | southWest => northEast
  | south => north

/-- The change of column and row when a link is followed. -/
def vector : Direction → Int × Int
  | east => (1, 0)
  | northEast => (1, 1)
  | north => (0, 1)
  | west => (-1, 0)
  | southWest => (-1, -1)
  | south => (0, -1)

/-- The link that makes a given change of column and row. -/
def ofVector? (dx dy : Int) : Option Direction :=
  all.find? fun d => d.vector == (dx, dy)

/-- The compass abbreviation of a link. -/
def name : Direction → String
  | east => "E"
  | northEast => "NE"
  | north => "N"
  | west => "W"
  | southWest => "SW"
  | south => "S"

/-- There are no links but the listed six, so what is checked for each of the list holds of every
link. -/
theorem mem_all (d : Direction) : d ∈ all := by
  cases d <;> decide

/-- A link is found again by its number. -/
theorem ofLinkId?_linkId (d : Direction) : ofLinkId? d.linkId = some d := by
  cases d <;> rfl

/-- Two links with the same number are one, because each is found again by its number. -/
theorem linkId_inj {a b : Direction} (h : a.linkId = b.linkId) : a = b := by
  have := ofLinkId?_linkId a
  rw [h, ofLinkId?_linkId] at this
  exact (Option.some.inj this).symm

/-- Going back twice is going forth. -/
@[simp] theorem opposite_opposite (d : Direction) : d.opposite.opposite = d := by
  cases d <;> rfl

/-- Coming back undoes the change of column and row. -/
theorem vector_opposite (d : Direction) :
    d.opposite.vector = (-d.vector.1, -d.vector.2) := by
  cases d <;> rfl

end Direction

/-- One hop of a path: the link taken and the chip it lands on. -/
structure Hop where
  link : Direction
  chip : Chip
deriving DecidableEq, Inhabited

/-- One end of a wire: a chip and the link that leaves it there. -/
structure Port where
  chip : Chip
  link : Direction
deriving DecidableEq, Inhabited

namespace Port

instance : Ord Port :=
  ⟨compareLex (compareOn Port.chip) (compareOn fun p => p.link.linkId)⟩

instance : Std.TransOrd Port :=
  inferInstanceAs
    (Std.TransCmp (compareLex (compareOn Port.chip) (compareOn fun p : Port => p.link.linkId)))

instance : Std.LawfulEqOrd Port where
  eq_of_compare {a b} h := by
    obtain ⟨hc, hl⟩ := Ordering.then_eq_eq.1 h
    cases a
    cases b
    exact congr (congrArg Port.mk (Std.LawfulEqOrd.eq_of_compare hc))
      (Direction.linkId_inj (Std.LawfulEqOrd.eq_of_compare hl))

end Port

end Multicast
