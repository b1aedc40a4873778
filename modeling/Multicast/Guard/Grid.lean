import Multicast.Growth.Attach
import Multicast.Machine.Fabric
import Multicast.Misuse
import Multicast.Repair.Detour
import Multicast.Table.Delivery

/-!
# `Multicast.Guard.Grid`: calls that step on a grid, checked

The same calls as without the guard, but a step on a torus with an empty side is
an error, and nothing else is.
-/

set_option autoImplicit false

namespace Multicast.Guard

variable {α : Type}

/-- An answer that took steps on a grid. -/
def onGrid (g : Grid) (a : α) : Except Misuse α :=
  if g.IsSteppable then .ok a else .error .emptySide

/-- The chip at an offset from another. -/
def offset (g : Grid) (c : Chip) (o : Offset) : Except Misuse (Option Chip) :=
  onGrid g (g.offset c o)

/-- The chip a link leads to. -/
def step (g : Grid) (c : Chip) (d : Direction) : Except Misuse (Option Chip) :=
  onGrid g (g.step c d)

/-- The shortest vector between two chips. -/
def vector (g : Grid) (source target : Chip) : Except Misuse HopVector :=
  onGrid g (g.vector source target)

/-- The link of a number of hops along an axis. -/
def hopDirection (axis : Nat) (hops : Int) : Except Misuse Direction :=
  if hops = 0 then .error .zeroHop
  else
    match Axis.ofIndex? axis with
    | some a => .ok (a.link (decide (0 < hops)))
    | none => .error (.noSuchAxis axis)

/-- Records a link and the link that comes back as dead. Where there is no way to step, only the
link itself is recorded. -/
def killLink (f : Fabric) (c : Chip) (d : Direction) : Fabric × Option Misuse :=
  if f.IsSteppable then (f.killLink c d, none) else (f.killLinkOneWay c d, some .emptySide)

/-- An answer that may fail and took steps on a grid. -/
def routing (g : Grid) (a : Except RouteError α) : Except RouteError α :=
  if g.IsSteppable then a else .error (.misuse .emptySide)

/-- The path between two chips in straight runs. -/
def straightRuns (g : Grid) (source target : Chip) : Except RouteError (List Hop) :=
  routing g (g.straightRuns source target)

/-- A path over working links from a goal chip to `start`. -/
def detour (f : Fabric) (start guide : Chip) (isGoal : Chip → Bool) : Except RouteError Detour :=
  routing f.toGrid (f.detour start guide isGoal)

/-- The tree chip nearest to a sink. No step is taken to find none in an empty tree that counts as
small. -/
def anchor (g : Grid) (index : ChipIndex) (sink : Chip) (radius : Nat) :
    Except Misuse (Option Chip) :=
  if index.size = 0 ∧ Anchor.isSmall index radius = true then .ok none
  else onGrid g (Anchor.find g index sink radius)

/-- Connects a chip to a tree. No step is taken for a chip that is there. -/
def attach (growth : Growth) (g : Grid) (c : Chip) (radius : Nat) : Growth.Attempt :=
  if growth.index.contains c ∨ g.IsSteppable then growth.attach g c radius
  else growth.failed (.misuse .emptySide)

/-- The endpoints reached from a source. Steps are taken over the links of entries only. -/
def reached (f : Fabric) (t : Tables) (p : Partition) (source : Endpoint) :
    Except Misuse (List Endpoint) :=
  match t.get? ⟨source.chip, p⟩ with
  | none => .ok []
  | some e =>
    if e.links.isEmpty then .ok (t.reached f p source) else onGrid f.toGrid (t.reached f p source)

end Multicast.Guard
