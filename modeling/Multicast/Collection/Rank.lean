/-!
# `Multicast.Collection.Rank`: who comes first

What waits is taken in the order of a key, and where keys are equal in the
order of arrival. A `Rank` is such a key with a place in the order of arrival;
no two things that arrived at different places have the same rank.
-/

set_option autoImplicit false

namespace Multicast

/-- A key, and the place that decides among equal keys. -/
structure Rank where
  key : Int
  place : Nat
deriving DecidableEq, Inhabited

namespace Rank

instance : Ord Rank := ⟨compareLex (compareOn Rank.key) (compareOn Rank.place)⟩

instance : Std.TransOrd Rank :=
  inferInstanceAs (Std.TransCmp (compareLex (compareOn Rank.key) (compareOn Rank.place)))

instance : Std.LawfulEqOrd Rank where
  eq_of_compare {a b} h := by
    obtain ⟨hk, hp⟩ := Ordering.then_eq_eq.1 h
    cases a
    cases b
    exact congr (congrArg Rank.mk (Std.LawfulEqOrd.eq_of_compare hk))
      (Std.LawfulEqOrd.eq_of_compare hp)

/-- Smaller keys come first, and of equal keys the smaller place. -/
theorem compare_lt_iff {a b : Rank} :
    compare a b = .lt ↔ a.key < b.key ∨ (a.key = b.key ∧ a.place < b.place) := by
  show (compare a.key b.key).then (compare a.place b.place) = .lt ↔ _
  rw [Ordering.then_eq_lt, Int.compare_eq_lt, Int.compare_eq_eq, Nat.compare_eq_lt]

end Rank

end Multicast
