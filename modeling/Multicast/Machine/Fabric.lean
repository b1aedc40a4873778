import Multicast.Geometry.Grid
import Std.Data.ExtTreeSet

/-!
# `Multicast.Machine.Fabric`: which chips and links work

A fabric is a grid with a record of what is dead. A link is dead in one
direction: `killLink` records both directions of a wire, `killLinkOneWay` only
one. A link works when its chip works, it is not recorded as dead, and it leads
to another working chip. A link that leads back to its own chip, as on a torus
one chip wide, never works.
-/

set_option autoImplicit false

namespace Multicast

/-- A grid with its dead chips and its dead links. -/
structure Fabric extends Grid where
  deadChips : Std.ExtTreeSet Chip
  deadLinks : Std.ExtTreeSet Port
deriving DecidableEq

namespace Fabric

/-- The grid with nothing dead. -/
def intact (g : Grid) : Fabric :=
  { toGrid := g, deadChips := ∅, deadLinks := ∅ }

/-- Whether a working chip is at a position. -/
def isChip (f : Fabric) (c : Chip) : Bool :=
  f.contains c && !f.deadChips.contains c

/-- Where a link leads if it works. -/
def follow? (f : Fabric) (c : Chip) (d : Direction) : Option Chip :=
  if f.isChip c && !f.deadLinks.contains ⟨c, d⟩ then
    (f.step c d).filter fun neighbour => neighbour != c && f.isChip neighbour
  else none

/-- Whether the link leaving a chip works. -/
def isLink (f : Fabric) (c : Chip) (d : Direction) : Bool :=
  (f.follow? c d).isSome

/-- The working chips, in the order of chips. -/
def chips (f : Fabric) : List Chip :=
  f.cells.filter f.isChip

/-- Goes through the working chips in the order of chips. -/
def foldChips {β : Type} (f : Fabric) (step : β → Chip → β) (start : β) : β :=
  f.foldCells (fun b c => if f.isChip c then step b c else b) start

/-- The working links of a chip and where they lead, in the order of link numbers. -/
def liveLinks (f : Fabric) (c : Chip) : List Hop :=
  Direction.all.filterMap fun d => (f.follow? c d).map fun neighbour => ⟨d, neighbour⟩

/-- Records a chip as dead. -/
def killChip (f : Fabric) (c : Chip) : Fabric :=
  { f with deadChips := f.deadChips.insert c }

/-- Records a link as dead in the direction given, and in that direction only. -/
def killLinkOneWay (f : Fabric) (c : Chip) (d : Direction) : Fabric :=
  { f with deadLinks := f.deadLinks.insert ⟨c, d⟩ }

/-- Records a link and the link that comes back as dead. -/
def killLink (f : Fabric) (c : Chip) (d : Direction) : Fabric :=
  match f.step c d with
  | some neighbour => (f.killLinkOneWay c d).killLinkOneWay neighbour d.opposite
  | none => f.killLinkOneWay c d

/-- A chip works when it is on the grid and not among the dead ones. -/
theorem isChip_iff {f : Fabric} {c : Chip} :
    f.isChip c = true ↔ f.contains c = true ∧ c ∉ f.deadChips := by
  rw [isChip, Bool.and_eq_true, Bool.not_eq_true', ← Bool.not_eq_true,
    Std.ExtTreeSet.contains_iff_mem]

/-- A link works exactly when its chip works, it is not dead and it leads to another working
chip. -/
theorem follow?_eq_some_iff {f : Fabric} {c n : Chip} {d : Direction} :
    f.follow? c d = some n ↔
      f.isChip c = true ∧ ⟨c, d⟩ ∉ f.deadLinks ∧
        f.step c d = some n ∧ n ≠ c ∧ f.isChip n = true := by
  rw [follow?, Option.ite_none_right_eq_some, Bool.and_eq_true, Bool.not_eq_true',
    ← Bool.not_eq_true, Std.ExtTreeSet.contains_iff_mem, Option.filter_eq_some_iff,
    Bool.and_eq_true, bne_iff_ne, and_assoc]

/-- A link works when its chip does, it is not dead itself, and it leads to another chip that works.
A link that leads back to its own chip, round a torus of one column or row, does not count. -/
theorem isLink_iff {f : Fabric} {c : Chip} {d : Direction} :
    f.isLink c d = true ↔
      f.isChip c = true ∧ ⟨c, d⟩ ∉ f.deadLinks ∧
        ∃ n, f.step c d = some n ∧ n ≠ c ∧ f.isChip n = true := by
  simp only [isLink, Option.isSome_iff_exists, follow?_eq_some_iff]
  constructor
  · rintro ⟨n, hc, hl, h⟩
    exact ⟨hc, hl, n, h⟩
  · rintro ⟨hc, hl, n, h⟩
    exact ⟨n, hc, hl, h⟩

/-- The chips listed are the working ones. -/
theorem mem_chips {f : Fabric} {c : Chip} : c ∈ f.chips ↔ f.isChip c = true := by
  simp only [chips, List.mem_filter, Grid.mem_cells, isChip, Bool.and_eq_true]
  exact ⟨fun h => h.2, fun h => ⟨h.1, h⟩⟩

/-- Going through the grid and passing over dead chips is going through the list of the working
ones. -/
theorem foldChips_eq {β : Type} (f : Fabric) (step : β → Chip → β) (start : β) :
    f.foldChips step start = f.chips.foldl step start := by
  rw [foldChips, Grid.foldCells_eq, chips, List.foldl_filter]

/-- A hop is listed just when its link works and leads to the chip it names, so searches over these
hops are searches over working links. -/
theorem mem_liveLinks {f : Fabric} {c : Chip} {h : Hop} :
    h ∈ f.liveLinks c ↔ f.follow? c h.link = some h.chip := by
  obtain ⟨d, n⟩ := h
  simp only [liveLinks, List.mem_filterMap, Option.map_eq_some_iff, Hop.mk.injEq]
  exact ⟨fun ⟨_, _, _, h, hd, hn⟩ => hd ▸ hn ▸ h, fun h => ⟨d, d.mem_all, n, h, rfl, rfl⟩⟩

end Fabric

end Multicast
