import Multicast.Collection.Assoc
import Multicast.Toml.Clash
import Multicast.Toml.Value

/-!
# `Multicast.Toml.Table`: tables while they are read

A table may be written in pieces, and how a table came about decides which
pieces may follow. A table with a header of its own cannot get another; one that
only stands in front of another's header can still get its own, and one made by
a dotted key is closed to headers. A dotted key may run through tables without a
header of their own, but what it assigns must go into a table made by dotted
keys.
-/

set_option autoImplicit false

namespace Multicast.Toml

/-- How a table came about. -/
inductive Origin where
  /-- By a header of its own, or as a value. -/
  | header
  /-- In front of a key in a header. -/
  | implied
  /-- In front of a key in an assignment. -/
  | dotted
deriving DecidableEq, Inhabited

/-- What a key stands for while the text is read. -/
inductive Item where
  | value (v : Value)
  | table (origin : Origin) (fields : List (String × Item))
  /-- An array of tables, each under a header. -/
  | tables (items : List (List (String × Item)))
deriving Inhabited

/-- A table with the way it came about. -/
structure Table where
  origin : Origin
  fields : List (String × Item)

mutual

/-- The value of an item. -/
def Item.toValue : Item → Value
  | .value v => v
  | .table _ fields => .table (fieldValues fields)
  | .tables items => .list (tableValues items)

/-- The values of fields. -/
def fieldValues : List (String × Item) → List (String × Value)
  | [] => []
  | (key, item) :: rest => (key, item.toValue) :: fieldValues rest

/-- The values of the tables of an array. -/
def tableValues : List (List (String × Item)) → List Value
  | [] => []
  | fields :: rest => .table (fieldValues fields) :: tableValues rest

end

/-- The item of a value in a table within a line: a table there has its whole text in one place, as
if under a header. -/
def Item.ofPart : Value → Item
  | .table fields => .table .header (fields.map fun (key, v) => (key, .value v))
  | v => .value v

namespace Table

variable {α : Type}

/-- An empty table under a header. -/
def empty : Table := ⟨.header, []⟩

/-- What a key stands for. -/
def get? (t : Table) (key : String) : Option Item :=
  Assoc.find key t.fields

/-- Gives a key a meaning. -/
def put (t : Table) (key : String) (item : Item) : Table :=
  { t with fields := Assoc.put key item t.fields }

/-- Takes a key out. -/
def erase (t : Table) (key : String) : Table :=
  { t with fields := t.fields.filter fun f => f.1 != key }

/-- The item of a table. -/
def toItem (t : Table) : Item := .table t.origin t.fields

/-- Changes the table at the end of a path; tables missing on the way are made. On an array of
tables the path goes on in the last. A path of an assignment does not enter tables with headers,
except for those of an array. `walked` holds the keys that led to the table. -/
def enter (assigning : Bool) (change : Table → Except Clash (Table × α)) (walked : List String) :
    List String → Table → Except Clash (Table × α)
  | [], t => change t
  | key :: path, t =>
    let onward := enter assigning change (walked ++ [key]) path
    match t.get? key with
    | none => do
      let (sub, a) ← onward ⟨if assigning then .dotted else .implied, []⟩
      return (t.put key sub.toItem, a)
    | some (.value v) => .error (.notTable (walked ++ [key]) v.kind)
    | some (.table origin fields) =>
      if assigning && origin == .header then .error (.closed key)
      else do
        let (sub, a) ← onward ⟨origin, fields⟩
        return (t.put key sub.toItem, a)
    | some (.tables items) => do
      let (sub, a) ← onward ⟨.header, items.getLast?.getD []⟩
      return (t.put key (.tables (items.dropLast ++ [sub.fields])), a)

/-- Gives a new key its meaning. A key with a path in front of it must lie in a table made by dotted
keys, and a key without one must not. -/
def assignHere (header : Option (List String)) (hasPath : Bool) (key : String) (item : Item)
    (t : Table) : Except Clash (Table × Unit) :=
  if (t.origin == .dotted) != hasPath then .error (.closed key)
  else if (t.get? key).isSome then .error (.assigned key header)
  else .ok (t.put key item, ())

/-- Gives a new key at the end of a path its meaning; `header` holds the keys of the header above
it, unless it stands in a table within a line. -/
def assign (t : Table) (header : Option (List String)) (path : List String) (key : String)
    (item : Item) : Except Clash Table :=
  (enter true (assignHere header (!path.isEmpty) key item) [] path t).map (·.1)

end Table

/-- A text being read: everything before the last header, and the table under it. -/
structure Draft where
  root : Table
  current : Table
  /-- The keys of the last header. -/
  path : List String
  /-- The last header starts an item of an array of tables. -/
  isItem : Bool

namespace Draft

/-- Nothing is read yet. -/
def empty : Draft := ⟨.empty, .empty, [], false⟩

/-- Puts a table under a new key, or at the end of an array of tables; `path` holds the keys in
front. -/
def close (current : Table) (isItem : Bool) (path : List String) (key : String) (t : Table) :
    Except Clash (Table × Unit) :=
  match t.get? key, isItem with
  | none, false => .ok (t.put key current.toItem, ())
  | none, true => .ok (t.put key (.tables [current.fields]), ())
  | some (.tables items), true => .ok (t.put key (.tables (items ++ [current.fields])), ())
  | _, _ => .error (.headed path)

/-- Everything read so far as one table. -/
def finish (d : Draft) : Except Clash Table :=
  match d.path.getLast? with
  | none => .ok d.current
  | some key =>
    let path := d.path.dropLast
    (d.root.enter false (close d.current d.isItem path key) [] path).map (·.1)

/-- Opens a table under a header: a new one, or one that so far only stood in front of others. -/
def openTable (path : List String) (key : String) (t : Table) : Except Clash (Table × Table) :=
  match t.get? key with
  | none => .ok (t, .empty)
  | some (.table .implied fields) => .ok (t.erase key, ⟨.header, fields⟩)
  | _ => .error (.headed path)

/-- Opens an item of an array of tables. -/
def openItem (path : List String) (key : String) (t : Table) : Except Clash (Table × Table) :=
  match t.get? key with
  | none => .ok (t.put key (.tables []), .empty)
  | some (.tables _) => .ok (t, .empty)
  | _ => .error (.headed path)

/-- Goes on under a header with the given keys and last key. -/
def header (d : Draft) (isItem : Bool) (path : List String) (key : String) :
    Except Clash Draft := do
  let root ← d.finish
  let opening := if isItem then openItem path key else openTable path key
  let (root, current) ← root.enter false opening [] path
  return { root, current, path := path ++ [key], isItem }

/-- Assigns a value under the last header. -/
def assign (d : Draft) (path : List String) (key : String) (v : Value) : Except Clash Draft := do
  let current ← d.current.assign (some d.path) path key (.value v)
  return { d with current }

end Draft

end Multicast.Toml
