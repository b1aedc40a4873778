import Multicast.Machine.Fabric
import Multicast.Machine.Settings
import Std.Data.ExtTreeMap

/-!
# `Multicast.Machine.Basic`: a fabric with its capacities

A machine adds to a fabric how many table entries each chip can hold and how
much bandwidth each link has. `Machine.ofSettings` builds one from its written
description and refuses a description that names something the grid does not
have.
-/

set_option autoImplicit false

namespace Multicast

/-- A fabric with the table space of its chips and the bandwidth of its links. -/
structure Machine (ν : Type) extends Fabric where
  entries : Chip → Nat
  bandwidth : Chip → Direction → ν

/-- Why a description does not give a machine. -/
inductive MachineError where
  | empty (width height : Nat)
  | offMachine (chip : Chip)
  | noSuchLink (chip : Chip) (link : Nat)
deriving DecidableEq

/-- The text of a refusal. -/
def MachineError.message : MachineError → String
  | empty width height => s!"machine dimensions {width}x{height} contain no chips"
  | offMachine chip => s!"chip {chip.text} is outside the machine"
  | noSuchLink chip link => s!"chip {chip.text} has no link {link}"

/-- Records the chips of a list as dead, in order, up to the first one off the grid. -/
def Fabric.killChips (f : Fabric) : List Chip → Except MachineError Fabric
  | [] => .ok f
  | c :: rest =>
    if f.contains c then (f.killChip c).killChips rest else .error (.offMachine c)

/-- Records the links of a list as dead, in order, up to the first one that does not exist. -/
def Fabric.killLinks (f : Fabric) : List DownLink → Except MachineError Fabric
  | [] => .ok f
  | l :: rest =>
    if f.contains l.chip then
      match Direction.ofLinkId? l.link with
      | some d => (f.killLink l.chip d).killLinks rest
      | none => .error (.noSuchLink l.chip l.link)
    else .error (.offMachine l.chip)

namespace Machine

variable {ν : Type}

/-- A fabric all of whose chips and links have the same capacities. -/
def uniform (f : Fabric) (entries : Nat) (bandwidth : ν) : Machine ν :=
  { toFabric := f, entries := fun _ => entries, bandwidth := fun _ _ => bandwidth }

/-- The capacities of a fabric about which nothing is written: 1024 entries to a chip, 250 units
of bandwidth to a link. -/
def standard (f : Fabric) : Machine Float :=
  uniform f 1024 250.0

/-- The machine of a written description. -/
def ofSettings (s : MachineSettings ν) : Except MachineError (Machine ν) :=
  if s.width = 0 ∨ s.height = 0 then .error (.empty s.width s.height)
  else do
    let intact := Fabric.intact { width := s.width, height := s.height, wraps := s.wraps }
    let fabric ← (← intact.killChips s.downChips).killLinks s.downLinks
    return uniform fabric s.routerEntries s.linkBandwidth

/-- The machine with another fabric. -/
def withFabric (m : Machine ν) (f : Fabric) : Machine ν :=
  { m with toFabric := f }

/-- The machine with the same table space on every chip. -/
def withEntries (m : Machine ν) (entries : Nat) : Machine ν :=
  { m with entries := fun _ => entries }

/-- The machine with a table space of its own for some chips. -/
def withEntriesAt (m : Machine ν) (special : Std.ExtTreeMap Chip Nat) : Machine ν :=
  { m with entries := fun c => special.getD c (m.entries c) }

/-- The machine with a bandwidth of its own for some links. -/
def withBandwidthAt (m : Machine ν) (special : Std.ExtTreeMap Port ν) : Machine ν :=
  { m with bandwidth := fun c d => special.getD ⟨c, d⟩ (m.bandwidth c d) }

end Machine

end Multicast
