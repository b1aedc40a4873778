import Multicast.Toml.Lexeme
import Multicast.Toml.Number
import Multicast.Toml.Table

/-!
# `Multicast.Toml.Document`: reading TOML

A text is read line by line into a draft; headers and assignments follow the
rules of `Multicast.Toml.Table`. Values are nested to a fixed depth at most.

The first thing wrong ends the reading. Where that is a clash, the clash is the
cause, with one exception: an item of a list is tried tentatively, so a table
that clashes in itself and is such an item only makes the list malformed. A key
that starts an assignment is tried tentatively too; behind it there is no way
back.
-/

set_option autoImplicit false

namespace Multicast.Toml

open Scan

/-- Values are nested in at most this many lists and tables. -/
def deepestNesting : Nat := 79

/-- Goes on with a result, or fails for the clash. -/
def settle {α : Type} : Except Clash α → Scan Clash α
  | .ok a => pure a
  | .error clash => Scan.refuse clash

/-- A value with space, comments and line ends around it. -/
def listItem (value : Scan Clash Value) : Scan Clash Value := do
  gaps
  let v ← value
  gaps
  return v

/-- A list; a comma may follow its last item. -/
def list (value : Scan Clash Value) : Scan Clash (List Value) := do
  Scan.char '['
  let items ← Scan.separated (Scan.char ',') (listItem value)
  if !items.isEmpty then
    let _ ← Scan.accept ','
  gaps
  Scan.char ']'
  return items

/-- A key, an equals sign and a value. -/
def assignment (value : Scan Clash Value) : Scan Clash (List String × String × Value) := do
  let (path, key) ← keyPath
  Scan.commit do
    Scan.char '='
    blanks
    let v ← value
    blanks
    return (path, key, v)

/-- The table of assignments, unless two of them clash. -/
def tableOf (assignments : List (List String × String × Value)) : Except Clash Table :=
  assignments.foldlM (fun t (path, key, v) => t.assign none path key (Item.ofPart v)) Table.empty

/-- A table within a line. -/
def inlineTable (value : Scan Clash Value) : Scan Clash Value := do
  Scan.char '\x7b'
  let assignments ← Scan.separated (Scan.char ',') (assignment value)
  blanks
  let table ← settle (tableOf assignments)
  Scan.char '\x7d'
  return table.toItem.toValue

/-- A word that stands for a value. -/
def word (text : String) (v : Value) : Scan Clash Value := do
  Scan.literal text.toList
  return v

/-- A value without parts. -/
def scalar : Scan Clash Value :=
  (do return .text (← string)) <|> word "true" (.boolean true) <|>
    word "false" (.boolean false) <|> numeral

/-- A value nested in at most the given number of lists and tables. -/
def value : Nat → Scan Clash Value
  | 0 => scalar
  | depth + 1 => do
    match ← Scan.peek with
    | some '[' => return .list (← list (value depth))
    | some '\x7b' => inlineTable (value depth)
    | _ => scalar

/-- A header, after its first bracket: a second one starts an item of an array of tables. -/
def header (d : Draft) : Scan Clash Draft := do
  let isItem ← Scan.accept '['
  let (path, key) ← keyPath
  Scan.char ']'
  if isItem then Scan.char ']'
  lineEnd
  settle (d.header isItem path key)

/-- An assignment on a line of its own. -/
def assignmentLine (d : Draft) : Scan Clash Draft := do
  let (path, key, v) ← assignment (value deepestNesting)
  lineEnd
  settle (d.assign path key v)

/-- One line, from its first character that is no space. -/
def line (d : Draft) : Scan Clash Draft := do
  match ← Scan.peek with
  | some '#' => do
    comment
    newline <|> Scan.finished
    return d
  | some '[' => do
    Scan.char '['
    header d
  | some '\n' => do
    newline
    return d
  | some '\r' => do
    newline
    return d
  | _ => assignmentLine d

/-- Lines up to the end of the text; each takes at least one character, so the length of the text
bounds their number. -/
def lines : Nat → Draft → Scan Clash Draft
  | 0, d => return d
  | bound + 1, d => do
    blanks
    match ← Scan.peek with
    | none => return d
    | some _ => lines bound (← line d)

/-- Reads a text; a byte order mark in front of it is passed over. A text that cannot be read has a
clash or is malformed. -/
def read (text : String) : Except (Option Clash) (List (String × Value)) := do
  let draft ← Scan.read (do
    let _ ← Scan.accept '\ufeff'
    lines (text.length + 1) .empty) text
  let root ← draft.finish.mapError some
  return fieldValues root.fields

end Multicast.Toml
