/-!
# `Multicast.Collection.Assoc`: look-up lists in insertion order

A look-up list holds one value per key and keeps the keys in the order in which
they first came. Setting a key that is present replaces its value in place, so
that the order of the keys says when each was first met.
-/

set_option autoImplicit false

namespace Multicast.Assoc

variable {κ ν : Type} [DecidableEq κ]

/-- The value of the first entry with a key. -/
def find (k : κ) : List (κ × ν) → Option ν
  | [] => none
  | e :: rest => if e.1 = k then some e.2 else find k rest

/-- Replaces the value of the first entry with a key, or adds an entry at the end. -/
def put (k : κ) (v : ν) : List (κ × ν) → List (κ × ν)
  | [] => [(k, v)]
  | e :: rest => if e.1 = k then (k, v) :: rest else e :: put k v rest

end Multicast.Assoc
