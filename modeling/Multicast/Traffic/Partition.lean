/-!
# `Multicast.Traffic.Partition`: the keys of routing table entries

Every multicast group has a partition number, a 32-bit word, under which its
table entries are stored. An allocator hands out blocks of consecutive numbers;
counting on past the largest word starts again from zero.
-/

set_option autoImplicit false

namespace Multicast

/-- The key of one multicast group. -/
structure Partition where
  number : UInt32
deriving DecidableEq, Inhabited

namespace Partition

/-- The partition a number of places further on. -/
def offset (p : Partition) (n : UInt32) : Partition :=
  ⟨p.number + n⟩

/-- The number in decimal. -/
def text (p : Partition) : String :=
  toString p.number.toNat

/-- Hands out blocks of consecutive partitions. -/
structure Allocator where
  next : Partition
deriving DecidableEq, Inhabited

/-- Sets a block aside: its first partition, and the allocator that goes on behind it. -/
def Allocator.allocate (a : Allocator) (count : UInt32) : Partition × Allocator :=
  (a.next, ⟨a.next.offset count⟩)

/-- The first partitions of blocks of the given sizes, set aside one after another. -/
def Allocator.blocks (a : Allocator) : List UInt32 → List Partition
  | [] => []
  | count :: rest => (a.allocate count).1 :: (a.allocate count).2.blocks rest

/-- Smaller numbers come first. -/
instance : Ord Partition := ⟨compareOn number⟩

instance : Std.TransOrd Partition :=
  inferInstanceAs (Std.TransCmp (compareOn Partition.number))

instance : Std.LawfulEqOrd Partition where
  eq_of_compare {a b} h := by
    cases a
    cases b
    exact congrArg mk (Std.LawfulEqOrd.eq_of_compare h)

end Partition

end Multicast
