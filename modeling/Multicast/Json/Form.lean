import Multicast.Json.Printer
import Multicast.Json.Reader

/-!
# `Multicast.Json.Form`: types written as JSON

A form writes the values of a type as JSON and reads them back. Reading also
accepts a record given as a list of all its fields in order, leaves fields of
other names alone, and takes a missing optional field as absent. A field given
twice is refused. A choice is its name, or an object with the name as its only
field; a choice with nothing in it may hold `null`.
-/

set_option autoImplicit false

namespace Multicast.Json

/-- How a type is written, and how it is read back. -/
structure Form (α : Type) where
  write : α → Value
  read : Value → Option α

namespace Form

variable {α β : Type}

/-- The values of a type through those of another. -/
def via (form : Form α) (there : β → α) (back : α → β) : Form β :=
  { write := fun b => form.write (there b)
    read := fun v => (form.read v).map back }

/-- Whole numbers below a limit. -/
def below (limit : Nat) : Form Nat :=
  { write := Value.ofNat
    read := fun v =>
      match v.int? with
      | some (.ofNat n) => if n < limit then some n else none
      | _ => none }

/-- Whole numbers of 32 bits with a sign. -/
def signed : Form Int :=
  { write := Value.ofInt
    read := fun v =>
      match v.int? with
      | some n => if Int32.minValue.toInt ≤ n ∧ n ≤ Int32.maxValue.toInt then some n else none
      | none => none }

/-- Texts. -/
def string : Form String :=
  { write := Value.ofString
    read := fun
      | .text s => s
      | _ => none }

/-- A value or `null`. -/
def optional (form : Form α) : Form (Option α) :=
  { write := fun
      | none => .null
      | some a => form.write a
    read := fun
      | .null => some none
      | v => (form.read v).map some }

/-- Reads every value of a list. -/
def readAll (form : Form α) : List Value → Option (List α)
  | [] => some []
  | v :: rest => do
    let a ← form.read v
    let others ← readAll form rest
    return a :: others

/-- Lists. -/
def list (form : Form α) : Form (List α) :=
  { write := fun l => .list (l.map form.write)
    read := fun
      | .list items => form.readAll items
      | _ => none }

/-- Pairs, as lists of two. -/
def pair (first : Form α) (second : Form β) : Form (α × β) :=
  { write := fun p => .list [first.write p.1, second.write p.2]
    read := fun
      | .list [a, b] => do return (← first.read a, ← second.read b)
      | _ => none }

/-- The text of a value read from a text, so that it has one spelling. -/
def respell (form : Form α) (text : String) : Option String := do
  let v ← read? text
  let a ← form.read v
  return (form.write a).compact

end Form

/-- The names of fields, if all of them stand for texts. -/
def fieldNames : List (Option String × Value) → Option (List (String × Value))
  | [] => some []
  | (none, _) :: _ => none
  | (some name, v) :: rest => (fieldNames rest).map ((name, v) :: ·)

/-- The value of a field: `some none` if it is missing, `none` if it is there twice. -/
def fieldValue (fields : List (String × Value)) (name : String) : Option (Option Value) :=
  match fields.filter fun f => f.1 == name with
  | [] => some none
  | [f] => some (some f.2)
  | _ => none

/-- The fields of a record by name, in order. -/
def recordFields (names : List String) : Value → Option (List (Option Value))
  | .object fields => do
    let named ← fieldNames fields
    names.mapM (fieldValue named)
  | .list items => if items.length = names.length then some (items.map some) else none
  | _ => none

/-- Reads a field that has to be there. -/
def Form.required {α : Type} (form : Form α) (field : Option Value) : Option α :=
  field.bind form.read

/-- Reads a field that may be missing. -/
def Form.absent {α : Type} (form : Form α) : Option Value → Option (Option α)
  | none => some none
  | some v => (Form.optional form).read v

/-- The name of a choice and what it holds. -/
def choice? : Value → Option (String × Option Value)
  | .text (some name) => some (name, none)
  | .object [(some name, v)] => some (name, some v)
  | _ => none

/-- A choice with something in it. -/
def Value.choice (name : String) (v : Value) : Value :=
  .record [(name, v)]

/-- A choice among names with nothing in them. -/
def Form.names {α : Type} [DecidableEq α] (table : List (String × α)) : Form α :=
  { write := fun a =>
      match table.find? fun row => row.2 == a with
      | some row => .ofString row.1
      | none => .null
    read := fun v =>
      match choice? v with
      | some (name, none) => (table.find? fun row => row.1 == name).map (·.2)
      | some (name, some .null) => (table.find? fun row => row.1 == name).map (·.2)
      | _ => none }

end Multicast.Json
