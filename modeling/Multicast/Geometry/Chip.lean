/-!
# `Multicast.Geometry.Chip`: the position of a chip

A chip is named by its column and its row. Chips are ordered column by column,
and within a column from south to north; every listing that promises an order
of chips uses this one.
-/

set_option autoImplicit false

namespace Multicast

/-- A chip position: column `x` counted from the west, row `y` from the south. -/
structure Chip where
  x : Nat
  y : Nat
deriving DecidableEq, Inhabited

namespace Chip

/-- Column by column, then row by row. -/
def compare (a b : Chip) : Ordering :=
  (Ord.compare a.x b.x).then (Ord.compare a.y b.y)

/-- The written form `(x, y)`. -/
def text (c : Chip) : String :=
  s!"({c.x}, {c.y})"

instance : Ord Chip := ⟨Chip.compare⟩

instance : Std.TransOrd Chip :=
  inferInstanceAs (Std.TransCmp (compareLex (compareOn Chip.x) (compareOn Chip.y)))

instance : Std.LawfulEqOrd Chip where
  eq_of_compare {a b} h := by
    obtain ⟨hx, hy⟩ := Ordering.then_eq_eq.1 h
    cases a
    cases b
    exact congr (congrArg Chip.mk (Std.LawfulEqOrd.eq_of_compare hx))
      (Std.LawfulEqOrd.eq_of_compare hy)

end Chip

end Multicast
