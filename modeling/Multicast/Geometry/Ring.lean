import Multicast.Geometry.HopVector

/-!
# `Multicast.Geometry.Ring`: the hexagonal rings around a chip

The chips exactly `r` hops from a centre form a hexagon with six sides of `r`
offsets each. A ring is listed from the offset straight south of the centre,
once round; the disc of a radius lists the centre and then ring after ring, so
nearer offsets come first.
-/

set_option autoImplicit false

namespace Multicast

/-- A change of column and row. -/
structure Offset where
  dx : Int
  dy : Int
deriving DecidableEq, Inhabited

namespace Offset

/-- The offset `n` steps on. -/
def advance (start step : Offset) (n : Nat) : Offset :=
  ⟨start.dx + n * step.dx, start.dy + n * step.dy⟩

/-- The number of hops an offset takes. -/
def hops (o : Offset) : Nat :=
  (HopVector.ofOffset o.dx o.dy).length

end Offset

namespace Ring

/-- The steps along the six sides of a ring, from its southern corner. -/
def sides : List Offset :=
  [⟨1, 1⟩, ⟨0, 1⟩, ⟨-1, 0⟩, ⟨-1, -1⟩, ⟨0, -1⟩, ⟨1, 0⟩]

/-- Walks the given sides from a corner, `r` offsets to a side; the last corner is left out,
since the next side starts there. -/
def walk (r : Nat) : Offset → List Offset → List Offset
  | _, [] => []
  | corner, side :: rest =>
    (List.range r).map (corner.advance side) ++ walk r (corner.advance side r) rest

/-- The offsets exactly `r` hops away, for a positive `r`. -/
def offsets (r : Nat) : List Offset :=
  walk r ⟨0, -r⟩ sides

/-- The offsets within `radius` hops, nearer rings first. -/
def disc (radius : Nat) : List Offset :=
  ⟨0, 0⟩ :: (List.range radius).flatMap fun r => offsets (r + 1)

/-- The first answer to a question put to the offsets of `count` rings, the nearest of radius
`r`. -/
def askRings {β : Type} (question : Offset → Option β) : Nat → Nat → Option β
  | 0, _ => none
  | count + 1, r =>
    match (offsets r).findSome? question with
    | some b => some b
    | none => askRings question count (r + 1)

/-- The first answer to a question put to the disc of a radius. No ring beyond the one that answers
is built. -/
def ask {β : Type} (question : Offset → Option β) (radius : Nat) : Option β :=
  match question ⟨0, 0⟩ with
  | some b => some b
  | none => askRings question radius 1

/-- The number of offsets within `radius` hops. -/
def discSize (radius : Nat) : Nat :=
  1 + 3 * radius * (radius + 1)

/-- Asking ring after ring gives the first answer along the offsets of all these rings, from the
innermost outwards. -/
theorem askRings_eq {β : Type} (question : Offset → Option β) (count r : Nat) :
    askRings question count r = ((List.range' r count).flatMap offsets).findSome? question := by
  induction count generalizing r with
  | zero => rfl
  | succ count ih =>
    rw [askRings, List.range'_succ, List.flatMap_cons, List.findSome?_append, ih]
    cases (offsets r).findSome? question <;> rfl

/-- The answer is that of the first offset of the disc that has one. -/
theorem ask_eq {β : Type} (question : Offset → Option β) (radius : Nat) :
    ask question radius = (disc radius).findSome? question := by
  rw [ask, askRings_eq, disc, List.findSome?_cons, List.range'_eq_map_range, List.flatMap_map]
  simp only [Nat.add_comm 1]
  cases question ⟨0, 0⟩ <;> rfl

end Ring

end Multicast
