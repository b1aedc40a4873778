import Multicast.Growth.StraightRuns
import Multicast.Tree.Walk

/-!
# `Multicast.Growth.Anchor`: the tree chip nearest to a sink

A sink is hooked to the tree chip nearest to it, its anchor. A small tree is
scanned chip by chip; around a large one the rings of the sink are probed
outwards. Both give up beyond the radius.
-/

set_option autoImplicit false

namespace Multicast

namespace Anchor

/-- A chip with its distance from a sink. -/
structure Candidate where
  distance : Nat
  chip : Chip
deriving DecidableEq

/-- The candidate to keep after looking at one more chip: a later one only if strictly nearer. -/
def consider (g : Grid) (sink : Chip) (radius : Nat) (best : Option Candidate) (c : Chip) :
    Option Candidate :=
  let distance := g.distance c sink
  if distance ≤ radius then
    match best with
    | none => some ⟨distance, c⟩
    | some b => if distance < b.distance then some ⟨distance, c⟩ else best
  else best

/-- The first of the nearest chips of a list, if one is within the radius. -/
def scan (g : Grid) (chips : List Chip) (sink : Chip) (radius : Nat) : Option Chip :=
  (chips.foldl (consider g sink radius) none).map (·.chip)

/-- The first chip of the tree met on the rings around a sink. -/
def probe (g : Grid) (index : ChipIndex) (sink : Chip) (radius : Nat) : Option Chip :=
  Ring.ask (fun o => (g.offset sink o).filter index.contains) radius

/-- Whether a tree is small enough to be scanned: it has less than a third as many chips as the
disc of the radius. -/
def isSmall (index : ChipIndex) (radius : Nat) : Bool :=
  decide (index.size < Ring.discSize radius / 3)

/-- The tree chip nearest to a sink, if one is within the radius. -/
def find (g : Grid) (index : ChipIndex) (sink : Chip) (radius : Nat) : Option Chip :=
  if isSmall index radius then scan g index.chips sink radius
  else probe g index sink radius

/-- A path that starts on a tree chip. -/
structure Branch where
  anchor : Chip
  hops : List Hop
deriving DecidableEq

/-- The branch behind the last hop that lands inside, or `best` if none does. -/
def behindLast (inside : Chip → Bool) (best : Branch) : List Hop → Branch
  | [] => best
  | hop :: rest =>
    behindLast inside (if inside hop.chip then ⟨hop.chip, rest⟩ else best) rest

/-- Drops every hop up to the last one that lands inside; that one becomes the anchor. -/
def truncate (inside : Chip → Bool) (anchor : Chip) (hops : List Hop) : Branch :=
  behindLast inside ⟨anchor, hops⟩ hops

end Anchor

end Multicast
