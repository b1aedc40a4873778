import Multicast.RouteError
import Multicast.Table.Flatten
import Multicast.Traffic.Partition
import Std.Data.ExtTreeMap

/-!
# `Multicast.Table.Tables`: the routing tables of all chips

The tables hold one entry to a slot, which is a chip and a partition; their rows
are listed in the order of slots. Adding an entry to a slot that has one merges
the two, or fails when they disagree on the ways out. Tables are read through
`get?`: `get?_set` says what a change does, and by `ext` nothing else counts.
-/

set_option autoImplicit false

namespace Multicast

/-- The key of a row: a chip and a partition. -/
structure Slot where
  chip : Chip
  partition : Partition
deriving DecidableEq, Inhabited

namespace Slot

/-- By chip, then by partition. -/
instance : Ord Slot := ⟨compareLex (compareOn chip) (compareOn partition)⟩

instance : Std.TransOrd Slot :=
  inferInstanceAs (Std.TransCmp (compareLex (compareOn Slot.chip) (compareOn Slot.partition)))

instance : Std.LawfulEqOrd Slot where
  eq_of_compare {a b} h := by
    obtain ⟨hc, hp⟩ := Ordering.then_eq_eq.1 h
    cases a
    cases b
    exact congr (congrArg mk (Std.LawfulEqOrd.eq_of_compare hc))
      (Std.LawfulEqOrd.eq_of_compare hp)

end Slot

/-- One entry with its key. -/
structure Row where
  slot : Slot
  entry : Entry
deriving DecidableEq, Inhabited

/-- The entries of all chips by their slots. -/
structure Tables where
  entries : Std.ExtTreeMap Slot Entry
deriving DecidableEq

namespace Tables

/-- No entries. -/
def empty : Tables := ⟨∅⟩

/-- The entry of a slot. -/
def get? (t : Tables) (slot : Slot) : Option Entry :=
  t.entries[slot]?

/-- Gives a slot an entry. -/
def set (t : Tables) (slot : Slot) (entry : Entry) : Tables :=
  ⟨t.entries.insert slot entry⟩

/-- What a slot holds after an entry is added to what it held; `none` if the two disagree. -/
def combine (known : Option Entry) (entry : Entry) : Option Entry :=
  match known with
  | none => some entry
  | some known => known.merge? entry

/-- Adds an entry. -/
def insert (t : Tables) (slot : Slot) (entry : Entry) : Except RouteError Tables :=
  match combine (t.get? slot) entry with
  | some combined => .ok (t.set slot combined)
  | none => .error (.conflict slot.chip slot.partition)

/-- The tables after adding entries one by one, and the error that stopped it, if one did. What
was added before the error stays. -/
def addEntries (t : Tables) (partition : Partition) : List ChipEntry → Tables × Option RouteError
  | [] => (t, none)
  | e :: rest =>
    match t.insert ⟨e.chip, partition⟩ e.entry with
    | .error error => (t, some error)
    | .ok next => next.addEntries partition rest

/-- The tables with the entries of a tree added. -/
def addTree (t : Tables) (partition : Partition) (tree : RouteTree) (source : Option Endpoint) :
    Tables × Option RouteError :=
  t.addEntries partition (tree.entries source)

/-- The rows, in the order of their slots. -/
def rows (t : Tables) : List Row :=
  t.entries.toList.map fun (slot, entry) => ⟨slot, entry⟩

/-- The rows of one chip. -/
def chipRows (t : Tables) (c : Chip) : List Row :=
  t.rows.filter fun row => row.slot.chip == c

/-- The rows grouped by chip. -/
def groups (t : Tables) : List (List Row) :=
  t.rows.splitBy fun a b => a.slot.chip == b.slot.chip

/-- The number of entries. -/
def entryCount (t : Tables) : Nat :=
  t.entries.size

/-- The number of chips with an entry. -/
def chipCount (t : Tables) : Nat :=
  t.groups.length

/-- The largest number of entries on one chip. -/
def fullest (t : Tables) : Nat :=
  t.groups.foldl (fun most group => max most group.length) 0

/-- The chips with more entries than they can hold, each with its number of entries. -/
def overfull (t : Tables) (capacity : Chip → Nat) : List (Chip × Nat) :=
  t.groups.filterMap fun group =>
    match group with
    | [] => none
    | row :: _ =>
      if capacity row.slot.chip < group.length then some (row.slot.chip, group.length) else none

/-- Empty tables have no entry anywhere. -/
@[simp] theorem get?_empty (slot : Slot) : empty.get? slot = none := by
  simp [get?, empty]

/-- An entry that is set is found in its slot, and every other slot is left as it was. -/
theorem get?_set (t : Tables) (slot other : Slot) (entry : Entry) :
    (t.set slot entry).get? other = if other = slot then some entry else t.get? other := by
  simp only [get?, set, Std.ExtTreeMap.getElem?_insert, Std.LawfulEqOrd.compare_eq_iff_eq,
    @eq_comm _ slot]

/-- Tables with the same entries are the same tables. -/
theorem ext {t u : Tables} (h : ∀ slot, t.get? slot = u.get? slot) : t = u := by
  cases t
  cases u
  exact congrArg mk (Std.ExtTreeMap.ext_getElem? h)

/-- The rows listed are the entries found by slot: whatever is said of tables slot by slot is said
of their rows. -/
theorem mem_rows {t : Tables} {r : Row} : r ∈ t.rows ↔ t.get? r.slot = some r.entry := by
  obtain ⟨slot, entry⟩ := r
  simp only [rows, List.mem_map, Row.mk.injEq, get?]
  constructor
  · rintro ⟨⟨s, e⟩, h, rfl, rfl⟩
    exact Std.ExtTreeMap.mem_toList_iff_getElem?_eq_some.1 h
  · exact fun h => ⟨(slot, entry), Std.ExtTreeMap.mem_toList_iff_getElem?_eq_some.2 h, rfl, rfl⟩

end Tables

end Multicast
