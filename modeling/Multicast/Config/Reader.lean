import Multicast.Config.Override
import Multicast.Config.Settings
import Multicast.Toml.Document

/-!
# `Multicast.Config.Reader`: configurations in TOML

A configuration has the sections `machine`, `router` and `dijkstra`. Keys are
taken in the order in which they are written, and the first that is wrong ends
the reading; keys that mean nothing are passed over. A section may also be a
list of its values in a fixed order, which may stop early.
-/

set_option autoImplicit false

namespace Multicast

/-- Why a TOML text is no configuration. -/
inductive ReadFault where
  | override (fault : OverrideFault)
  | missing (field : String)
  | algorithm (name : String)
  | clash (clash : Toml.Clash)
  /-- It is not TOML, or a value is of a kind that does not fit. -/
  | misfit
deriving DecidableEq

namespace ReadFault

/-- What is wrong, in words, where the wording is fixed. -/
def message? : ReadFault → Option String
  | override fault => some fault.message
  | missing field => some s!"missing field `{field}`"
  | algorithm name => some s!"unknown variant `{name}`, expected `ner` or `dijkstra`"
  | clash c => some c.message
  | misfit => none

/-- The beginnings of headlines. -/
def beginnings : List String :=
  ["expected 2 values in ", "expected 3 values in ", "invalid number in ", "link id ",
   "missing field "]

/-- Whether a line can be the headline of an error. -/
def isHeadline (line : String) : Bool :=
  (beginnings.any fun start => line.startsWith start) ||
    (line.startsWith "invalid length " && line.endsWith "-element lists")

/-- A line without the carriage return at its end. -/
def stripReturn (line : String) : String :=
  match line.toList.getLast? with
  | some '\r' => String.ofList line.toList.dropLast
  | _ => line

/-- The first line of a message that can be a headline; quoted input may bring lines of its
own. -/
def headline? (f : ReadFault) : Option String :=
  f.message?.bind fun message =>
    (((Override.split '\n' message.toList).map String.ofList).map stripReturn).find? isHeadline

end ReadFault

namespace Config

open Toml (Value)

/-- The limit of whole numbers in a configuration. -/
def wordLimit : Nat := UInt32.size

/-- A whole number. -/
def word : Value → Except ReadFault Nat
  | .integer n => if 0 ≤ n ∧ n < wordLimit then .ok n.toNat else .error .misfit
  | _ => .error .misfit

/-- A number; an integer will do. -/
def float : Value → Except ReadFault Float
  | .float x => .ok x
  | .integer n => .ok (Float.ofInt n)
  | _ => .error .misfit

/-- A truth value. -/
def boolean : Value → Except ReadFault Bool
  | .boolean b => .ok b
  | _ => .error .misfit

/-- Whole numbers one after another. -/
def words : List Value → Except ReadFault (List Nat)
  | [] => .ok []
  | v :: rest => do
    let n ← word v
    let others ← words rest
    return n :: others

/-- One group of an override in list form. -/
def group {α : Type} (form : Override.Form α) : Value → Except ReadFault α
  | .list items => do
    let numbers ← words items
    (Override.ofNumbers form numbers).mapError .override
  | _ => .error .misfit

/-- Groups one after another. -/
def groups {α : Type} (form : Override.Form α) : List Value → Except ReadFault (List α)
  | [] => .ok []
  | v :: rest => do
    let a ← group form v
    let others ← groups form rest
    return a :: others

/-- An override in either form. -/
def override {α : Type} (form : Override.Form α) : Value → Except ReadFault (List α)
  | .text s => (Override.ofText form s).mapError .override
  | .list items => groups form items
  | _ => .error .misfit

/-- Dead links. -/
def downLinks (v : Value) : Except ReadFault (List DownLink) := do
  let links ← override Override.downLink v
  (Override.checkLinks links).mapError .override

/-- A router by name. -/
def algorithmNamed (name : String) : Except ReadFault Algorithm :=
  if name == "ner" then .ok .nearest
  else if name == "dijkstra" then .ok .cheapest
  else .error (.algorithm name)

/-- A router: its name, or a table with its name as the only key and nothing in it. -/
def algorithm : Value → Except ReadFault Algorithm
  | .text name => algorithmNamed name
  | .table [(name, v)] => do
    let a ← algorithmNamed name
    match v with
    | .table [] => return a
    | .list [] => return a
    | _ => .error .misfit
  | _ => .error .misfit

/-- A section: named fields, or values in a fixed order. -/
inductive Section where
  | named (fields : List (String × Value))
  | positional (values : List Value)

/-- A section as written. A date has no fields of a section. -/
def sectionOf : Value → Except ReadFault Section
  | .table fields => .ok (.named fields)
  | .list values => .ok (.positional values)
  | .moment => .ok (.named [])
  | _ => .error .misfit

/-- The fields of a section by name, those in order having the names in order. -/
def Section.fields (names : List String) : Section → List (String × Value)
  | .named fields => fields
  | .positional values => names.zip values

/-- A value that has to be there; in a list its absence has no wording. -/
def Section.required {α : Type} (s : Section) (field : String) : Option α → Except ReadFault α
  | some a => .ok a
  | none =>
    match s with
    | .named _ => .error (.missing field)
    | .positional _ => .error .misfit

/-- The values of the machine section read so far. -/
structure MachineParts where
  width : Option Nat
  height : Option Nat
  wraps : Bool
  downChips : List Chip
  downLinks : List DownLink
  routerEntries : Nat
  linkBandwidth : Float

/-- Nothing read yet; what may be left out has its usual value. -/
def MachineParts.start : MachineParts :=
  { width := none, height := none, wraps := false, downChips := [], downLinks := []
    routerEntries := 1024, linkBandwidth := 250.0 }

/-- The fields of the machine section in order. -/
def machineFields : List String :=
  ["width", "height", "wrap_around", "down_chips", "down_links", "router_entries",
   "link_bandwidth"]

/-- Reads one field of the machine section. -/
def MachineParts.add (p : MachineParts) (field : String × Value) :
    Except ReadFault MachineParts :=
  match field.1 with
  | "width" => do return { p with width := some (← word field.2) }
  | "height" => do return { p with height := some (← word field.2) }
  | "wrap_around" => do return { p with wraps := ← boolean field.2 }
  | "down_chips" => do return { p with downChips := ← override Override.chip field.2 }
  | "down_links" => do return { p with downLinks := ← Config.downLinks field.2 }
  | "router_entries" => do return { p with routerEntries := ← word field.2 }
  | "link_bandwidth" => do return { p with linkBandwidth := ← float field.2 }
  | _ => .ok p

/-- The machine section. -/
def machine (v : Value) : Except ReadFault (MachineSettings Float) := do
  let written ← sectionOf v
  let parts ← (written.fields machineFields).foldlM MachineParts.add .start
  let width ← written.required "width" parts.width
  let height ← written.required "height" parts.height
  return {
    width, height
    wraps := parts.wraps
    downChips := parts.downChips
    downLinks := parts.downLinks
    routerEntries := parts.routerEntries
    linkBandwidth := parts.linkBandwidth }

/-- The choice of a router. -/
structure RouterParts where
  algorithm : Algorithm
  radius : Nat

/-- The usual router. -/
def RouterParts.start : RouterParts := ⟨.nearest, defaultRadius⟩

/-- The fields of the router section in order. -/
def routerFields : List String := ["algorithm", "radius"]

/-- Reads one field of the router section. -/
def RouterParts.add (p : RouterParts) (field : String × Value) : Except ReadFault RouterParts :=
  match field.1 with
  | "algorithm" => do return { p with algorithm := ← Config.algorithm field.2 }
  | "radius" => do return { p with radius := ← word field.2 }
  | _ => .ok p

/-- The router section. -/
def router (v : Value) : Except ReadFault RouterParts := do
  let written ← sectionOf v
  (written.fields routerFields).foldlM RouterParts.add .start

/-- The fields of the section of link costs in order. -/
def weightFields : List String := ["k", "l", "m", "bandwidth_per_route"]

/-- Reads one field of the section of link costs. -/
def addWeight (w : Weights Float) (field : String × Value) : Except ReadFault (Weights Float) :=
  match field.1 with
  | "k" => do return { w with k := ← float field.2 }
  | "l" => do return { w with l := ← float field.2 }
  | "m" => do return { w with m := ← float field.2 }
  | "bandwidth_per_route" => do return { w with perRoute := ← float field.2 }
  | _ => .ok w

/-- The section of link costs. -/
def weights (v : Value) : Except ReadFault (Weights Float) := do
  let written ← sectionOf v
  (written.fields weightFields).foldlM addWeight .standard

/-- The sections read so far. -/
structure Parts where
  machine : Option (MachineSettings Float)
  router : RouterParts
  weights : Weights Float

/-- Nothing read yet. -/
def Parts.start : Parts := ⟨none, .start, .standard⟩

/-- Reads one section. -/
def Parts.add (p : Parts) (field : String × Value) : Except ReadFault Parts :=
  match field.1 with
  | "machine" => do return { p with machine := some (← Config.machine field.2) }
  | "router" => do return { p with router := ← Config.router field.2 }
  | "dijkstra" => do return { p with weights := ← Config.weights field.2 }
  | _ => .ok p

/-- The configuration of a table. -/
def ofFields (fields : List (String × Value)) : Except ReadFault (Settings Float) := do
  let parts ← fields.foldlM Parts.add .start
  match parts.machine with
  | none => .error (.missing "machine")
  | some machine =>
    return {
      machine
      algorithm := parts.router.algorithm
      radius := parts.router.radius
      weights := parts.weights }

/-- The configuration a text writes, not yet validated. -/
def parse (text : String) : Except ReadFault (Settings Float) :=
  match Toml.read text with
  | .error none => .error .misfit
  | .error (some clash) => .error (.clash clash)
  | .ok fields => ofFields fields

/-- Reads and validates a configuration. -/
def read (text : String) : Except ConfigError (Settings Float) :=
  match parse text with
  | .error fault => .error (.malformed fault.headline?)
  | .ok settings => do
    settings.validate
    return settings

/-- The name of the configuration file of a directory. -/
def fileName : String := "meshcast.toml"

/-- Reads the configuration of a directory, given as its files and what is in them. -/
def readDirectory (files : List (String × ByteArray)) : Except ConfigError (Settings Float) :=
  match files.find? fun file => file.1 == fileName with
  | none => .error (.file .missing)
  | some file =>
    match String.fromUTF8? file.2 with
    | none => .error (.file .notText)
    | some text => read text

end Config

end Multicast
