import Multicast.Geometry.Direction

/-!
# `Multicast.Geometry.HopVector`: displacements in hops

A hop moves along one of three axes: `x` (east and west), `y` (north and south)
or `z` (the diagonal, counted positive towards the south-west). One hop along
each axis together goes nowhere, so a displacement has many vectors; taking the
median from every component gives the one with the fewest hops.

On a torus a displacement can go round either way along each side. The four
choices are compared in a fixed order, and a later one is taken only when it is
strictly shorter.

Components are numbers without bound. In words of 32 bits the vectors are the
same only as long as the chips they join lie less than `2 ^ 31` columns and rows
apart; a larger difference is cut down to one that may lead the other way. On a
grid with sides below `2 ^ 31` no difference is cut (`Grid.IsNarrow.fitsWords` in
`Multicast.Proofs.Geometry.Words`). What is said about a wider grid is said about
unbounded vectors.
-/

set_option autoImplicit false

namespace Multicast

/-- The three axes a hop can follow. -/
inductive Axis where
  | x
  | y
  | z
deriving DecidableEq, Inhabited

namespace Axis

/-- The place of an axis in a written vector. -/
def index : Axis → Nat
  | x => 0
  | y => 1
  | z => 2

/-- The axis with a given place. -/
def ofIndex? : Nat → Option Axis
  | 0 => some x
  | 1 => some y
  | 2 => some z
  | _ => none

/-- The link followed for one hop along an axis, forwards or backwards. -/
def link : Axis → Bool → Direction
  | x, true => .east
  | x, false => .west
  | y, true => .north
  | y, false => .south
  | z, true => .southWest
  | z, false => .northEast

end Axis

/-- The middle one of three numbers. -/
def median (a b c : Int) : Int :=
  max (min a b) (min (max a b) c)

/-- A displacement in hops along the three axes. -/
structure HopVector where
  x : Int
  y : Int
  z : Int
deriving DecidableEq, Inhabited

namespace HopVector

/-- The hops of a vector, axis by axis. -/
def components (v : HopVector) : List (Axis × Int) :=
  [(.x, v.x), (.y, v.y), (.z, v.z)]

/-- The vector of the same displacement with the fewest hops. -/
def minimal (v : HopVector) : HopVector :=
  let m := median v.x v.y v.z
  ⟨v.x - m, v.y - m, v.z - m⟩

/-- The number of hops a vector takes. -/
def length (v : HopVector) : Nat :=
  v.x.natAbs + v.y.natAbs + v.z.natAbs

/-- Whether a vector stays where it is. -/
def isZero (v : HopVector) : Bool :=
  v.x == 0 && v.y == 0 && v.z == 0

/-- The shortest vector for a change of column and row. -/
def ofOffset (dx dy : Int) : HopVector :=
  minimal ⟨dx, dy, 0⟩

/-- The shortest vector between two chips of a grid with edges, of whatever size their difference
is. -/
def direct (source target : Chip) : HopVector :=
  ofOffset ((target.x : Int) - source.x) ((target.y : Int) - source.y)

/-- One way of going round a torus: its number of hops and its change of column and row. -/
structure Approach where
  hops : Int
  dx : Int
  dy : Int
deriving DecidableEq, Inhabited

/-- The four ways from a chip to one `x` columns east and `y` rows north of it on a torus:
straight, round the columns, round the rows, round both. -/
def approaches (width height : Nat) (x y : Int) : List Approach :=
  [⟨max x y, x, y⟩,
   ⟨width - x + y, -(width - x), y⟩,
   ⟨x + height - y, x, -(height - y)⟩,
   ⟨max (width - x) (height - y), -(width - x), -(height - y)⟩]

/-- The first of the shortest approaches. -/
def Approach.shortest (first : Approach) (others : List Approach) : Approach :=
  others.foldl (fun best next => if next.hops < best.hops then next else best) first

/-- The shortest way from one chip of a torus to another. The columns and rows are counted from the
source eastwards and northwards, round the far side where the target lies west or south. -/
def wayRound (source target : Chip) (width height : Nat) : Approach :=
  let x := ((target.x : Int) - source.x) % width
  let y := ((target.y : Int) - source.y) % height
  Approach.shortest ⟨max x y, x, y⟩ (approaches width height x y)

/-- The shortest vector between two chips of a torus. -/
def around (source target : Chip) (width height : Nat) : HopVector :=
  let way := wayRound source target width height
  ofOffset way.dx way.dy

/-- Puts an axis before the first one that has no more hops than it. -/
def insertRun (a : Axis × Int) : List (Axis × Int) → List (Axis × Int)
  | [] => [a]
  | b :: rest => if b.2.natAbs ≤ a.2.natAbs then a :: b :: rest else b :: insertRun a rest

/-- The straight runs of a vector, longest first; runs of one length keep the order of the axes. -/
def runs (v : HopVector) : List (Direction × Nat) :=
  ((v.components.foldr insertRun []).filter fun a => a.2 != 0).map fun a =>
    (a.1.link (decide (0 < a.2)), a.2.natAbs)

end HopVector

end Multicast
