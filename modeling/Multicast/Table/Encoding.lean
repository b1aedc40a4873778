import Multicast.Table.Tables

/-!
# `Multicast.Table.Encoding`: the tables as bytes

A number up to 250 is one byte. A larger one has a leading byte that says how
many bytes follow, least significant first: 251 for two, 252 for four, 253 for
eight, 254 for sixteen. A number wider still is led by 255, its lowest sixteen
bytes, and the number made of the rest, so that every number has a code.

A list is its length followed by its elements, an optional value is a byte 0,
or a byte 1 and the value. The tables are the list of chips that have entries,
each with the list of its partitions and their entries.
-/

set_option autoImplicit false

namespace Multicast.Encoding

/-- The given number of bytes of a number, least significant first. -/
def littleEndian : Nat → Nat → List UInt8
  | 0, _ => []
  | count + 1, n => UInt8.ofNat n :: littleEndian count (n / 256)

/-- How many numbers can be told apart by the given number of bytes. -/
def room (bytes : Nat) : Nat := Nat.pow 256 bytes

/-- A number. -/
def number (n : Nat) : List UInt8 :=
  if n ≤ 250 then [UInt8.ofNat n]
  else if n < room 2 then 251 :: littleEndian 2 n
  else if n < room 4 then 252 :: littleEndian 4 n
  else if n < room 8 then 253 :: littleEndian 8 n
  else if n < room 16 then 254 :: littleEndian 16 n
  else 255 :: littleEndian 16 n ++ number (n / room 16)
termination_by n
decreasing_by exact Nat.div_lt_self (by omega) (by decide)

/-- A list: its length, then its elements. -/
def list {α : Type} (element : α → List UInt8) (l : List α) : List UInt8 :=
  number l.length ++ l.flatMap element

/-- An optional value: 0, or 1 and the value. -/
def optional {α : Type} (value : α → List UInt8) : Option α → List UInt8
  | none => [0]
  | some a => 1 :: value a

/-- A link: its number. -/
def link (d : Direction) : List UInt8 :=
  number d.linkId

/-- A core: its byte. -/
def core (c : UInt8) : List UInt8 :=
  [c]

/-- A chip: its column, then its row. -/
def chip (c : Chip) : List UInt8 :=
  number c.x ++ number c.y

/-- An entry: its links, its cores, the link and the core packets come from. -/
def entry (e : Entry) : List UInt8 :=
  list link e.links ++ list core e.cores ++
    optional link e.incomingLink ++ optional core e.incomingCore

/-- A row without its chip. -/
def row (r : Row) : List UInt8 :=
  number r.slot.partition.number.toNat ++ entry r.entry

/-- The rows of one chip. -/
def group : List Row → List UInt8
  | [] => []
  | r :: rest => chip r.slot.chip ++ list row (r :: rest)

/-- The tables. -/
def tables (t : Tables) : List UInt8 :=
  list group t.groups

end Multicast.Encoding
