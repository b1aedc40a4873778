import Multicast.Machine.Basic
import Multicast.Pipeline.Options

/-!
# `Multicast.Config.Settings`: a configuration and its limits

A configuration describes the machine, chooses a router and sets the
coefficients of link costs. `Settings.validate` refuses one that could not be
used, naming the first thing that is wrong.
-/

set_option autoImplicit false

namespace Multicast

/-- A configuration. -/
structure Settings (ν : Type) where
  machine : MachineSettings ν
  algorithm : Algorithm
  radius : Nat
  weights : Weights ν

/-- What is wrong with the settings of a configuration. -/
inductive SettingsFault where
  | noChips (width height : Nat)
  | linkNumber (chip : Chip) (link : Nat)
  | noEntries
  | bandwidth
  | radius (radius : Nat)
  | hopCost
  | coefficient
deriving DecidableEq

/-- The largest radius a configuration may ask for. -/
def largestRadius : Nat := 1024

/-- What is wrong, in words. -/
def SettingsFault.message : SettingsFault → String
  | noChips width height => s!"machine must have at least one chip, got {width}x{height}"
  | linkNumber chip link => s!"down link on chip {chip.text} has link id {link}, expected 0-5"
  | noEntries => "machine.router_entries must be positive"
  | bandwidth => "machine.link_bandwidth must be positive"
  | radius r => s!"router.radius {r} exceeds the maximum of {largestRadius}"
  | hopCost => "dijkstra.k must be positive"
  | coefficient =>
    "dijkstra.l, dijkstra.m and dijkstra.bandwidth_per_route must not be negative"

/-- What lies off the machine. -/
inductive Placed where
  | downChip
  | downLink
deriving DecidableEq

/-- What lies off the machine, in words. -/
def Placed.text : Placed → String
  | downChip => "down chip"
  | downLink => "down link"

/-- Why a configuration file cannot be read. -/
inductive FileFault where
  | missing
  | notText
deriving DecidableEq

/-- Why a file cannot be read, in words. -/
def FileFault.text : FileFault → String
  | missing => "No such file or directory (os error 2)"
  | notText => "stream did not contain valid UTF-8"

/-- Why there is no configuration. -/
inductive ConfigError where
  | file (fault : FileFault)
  /-- The text is no configuration; the headline says why where that has a fixed wording. -/
  | malformed (headline : Option String)
  | offMachine (what : Placed) (chip : Chip) (width height : Nat)
  | invalid (fault : SettingsFault)
deriving DecidableEq

/-- The text of an error, where it has a fixed wording. -/
def ConfigError.message? : ConfigError → Option String
  | file fault => some ("failed to read configuration: " ++ fault.text)
  | malformed headline => headline
  | offMachine what chip width height =>
    some s!"{what.text} {chip.text} is outside the {width}x{height} machine"
  | invalid fault => some ("validation error: " ++ fault.message)

namespace Settings

variable {ν : Type} [Quantity ν]

/-- The options the configuration chooses. -/
def options (s : Settings ν) : Options ν :=
  { algorithm := s.algorithm, radius := s.radius, weights := s.weights, cancelled := false }

/-- Whether a chip lies on the machine described. -/
def covers (m : MachineSettings ν) (c : Chip) : Bool :=
  decide (c.x < m.width) && decide (c.y < m.height)

/-- Refuses the first dead chip off the machine. -/
def checkChips (m : MachineSettings ν) : List Chip → Except ConfigError Unit
  | [] => .ok ()
  | c :: rest =>
    if covers m c then checkChips m rest
    else .error (.offMachine .downChip c m.width m.height)

/-- Refuses the first dead link off the machine or with a number no link has. -/
def checkLinks (m : MachineSettings ν) : List DownLink → Except ConfigError Unit
  | [] => .ok ()
  | l :: rest =>
    if !covers m l.chip then .error (.offMachine .downLink l.chip m.width m.height)
    else if 5 < l.link then .error (.invalid (.linkNumber l.chip l.link))
    else checkLinks m rest

/-- The first fault of the description of a machine. -/
def checkMachine (m : MachineSettings ν) : Except ConfigError Unit :=
  if m.width = 0 ∨ m.height = 0 then .error (.invalid (.noChips m.width m.height))
  else do
    checkChips m m.downChips
    checkLinks m m.downLinks
    if m.routerEntries = 0 then .error (.invalid .noEntries)
    else if !Quantity.lt Quantity.zero m.linkBandwidth then .error (.invalid .bandwidth)
    else .ok ()

/-- The first fault of the coefficients of link costs. A coefficient is refused for being less
than zero, not for failing to be at least zero. -/
def checkWeights (w : Weights ν) : Except ConfigError Unit :=
  if !Quantity.lt Quantity.zero w.k then .error (.invalid .hopCost)
  else if Quantity.lt w.l Quantity.zero || Quantity.lt w.m Quantity.zero ||
      Quantity.lt w.perRoute Quantity.zero then .error (.invalid .coefficient)
  else .ok ()

/-- Refuses a configuration that could not be used. -/
def validate (s : Settings ν) : Except ConfigError Unit := do
  checkMachine s.machine
  if largestRadius < s.radius then .error (.invalid (.radius s.radius)) else checkWeights s.weights

end Settings

end Multicast
