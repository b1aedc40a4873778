import Mathlib.Algebra.Ring.Nat
import Mathlib.Data.List.Nodup
import Multicast.Traffic.Partition

/-!
# `Multicast.Proofs.Traffic.Partition`: blocks of partitions

`Partition.block` lists the partitions of a block from its first one on. A block of no more than
all numbers names none twice, wherever it starts and whether or not it goes past the largest
number (`nodup_block`). Blocks set aside one after another make one block (`block_add`).
-/

set_option autoImplicit false

namespace Multicast.Partition

variable {count : Nat}

/-- The partitions of a block, from its first one on. -/
def block (p : Partition) (count : Nat) : List Partition :=
  (List.range count).map fun n => p.offset (UInt32.ofNat n)

/-- No places on is the partition itself. -/
@[simp] theorem offset_zero (p : Partition) : p.offset 0 = p := by
  simp [offset]

/-- Places on add up, past the largest number too. -/
theorem offset_offset (p : Partition) (m n : UInt32) :
    (p.offset m).offset n = p.offset (m + n) := by
  simp [offset, UInt32.add_assoc]

/-- A block begins with its first partition and goes on from the next. -/
theorem block_succ (p : Partition) (count : Nat) :
    p.block (count + 1) = p :: (p.offset 1).block count := by
  have hrest (n : Nat) : p.offset (UInt32.ofNat (n + 1)) =
      (p.offset 1).offset (UInt32.ofNat n) := by
    rw [offset_offset, UInt32.ofNat_add, UInt32.add_comm]
    rfl
  rw [block, List.range_succ_eq_map, List.map_cons, List.map_map, block]
  refine congr (congrArg _ (offset_zero p)) (List.map_congr_left fun n _ => hrest n)

/-- A block goes on where its first part ends. -/
theorem block_add (p : Partition) (m n : Nat) :
    p.block (m + n) = p.block m ++ (p.offset (UInt32.ofNat m)).block n := by
  induction m generalizing p with
  | zero =>
      rw [Nat.zero_add]
      exact congrArg (block · n) (offset_zero p).symm
  | succ m ih =>
      rw [Nat.succ_add, block_succ, ih, block_succ, offset_offset, UInt32.ofNat_add,
        UInt32.add_comm]
      rfl

/-- A block of no more than all numbers names no partition twice. -/
theorem nodup_block (p : Partition) (h : count ≤ 2 ^ 32) : (p.block count).Nodup := by
  refine List.Nodup.map_on (fun m hm n hn heq => ?_) List.nodup_range
  have hmod : m % 2 ^ 32 = n % 2 ^ 32 := by
    have hoff := (UInt32.add_right_inj p.number).1 (Partition.mk.inj heq)
    simpa using congrArg UInt32.toNat hoff
  rwa [Nat.mod_eq_of_lt (Nat.lt_of_lt_of_le (List.mem_range.1 hm) h),
    Nat.mod_eq_of_lt (Nat.lt_of_lt_of_le (List.mem_range.1 hn) h)] at hmod

end Multicast.Partition
