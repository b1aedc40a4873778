import Std.Data.ExtTreeMap

/-!
# `Multicast.Collection.Least`: the first entry of a map

`least?` walks a map in the order of its keys and stops at the first entry, so
it looks at one branch only. It is the head of the list of entries
(`least?_eq_head?_toList`), it is missing from the empty map alone
(`least?_eq_none_iff`), and its key is at most every other
(`least?_eq_some_iff`).
-/

set_option autoImplicit false

namespace Multicast

variable {α β : Type} [Ord α] [Std.TransOrd α]

/-- The entry of the smallest key. -/
def least? (m : Std.ExtTreeMap α β) : Option (α × β) :=
  Id.run (m.forIn (fun key value _ => .done (some (key, value))) none)

/-- The entries are listed by key, so the least is the one in front. -/
theorem least?_eq_head?_toList (m : Std.ExtTreeMap α β) : least? m = m.toList.head? := by
  rw [least?, Std.ExtTreeMap.forIn_eq_forIn, Std.ExtTreeMap.forIn_eq_forIn_toList]
  cases m.toList <;> rfl

/-- The key of the least entry is the smallest key. -/
theorem least?_map_fst (m : Std.ExtTreeMap α β) : (least? m).map Prod.fst = m.minKey? := by
  rw [least?_eq_head?_toList, Std.ExtTreeMap.minKey?_eq_head?_keys,
    ← Std.ExtTreeMap.map_fst_toList_eq_keys, List.head?_map]

/-- Only the empty map has no least entry. -/
theorem least?_eq_none_iff {m : Std.ExtTreeMap α β} : least? m = none ↔ m = ∅ := by
  rw [← Std.ExtTreeMap.minKey?_eq_none_iff, ← least?_map_fst, Option.map_eq_none_iff]

/-- The least entry is an entry whose key is at most every key. -/
theorem least?_eq_some_iff [Std.LawfulEqOrd α] {m : Std.ExtTreeMap α β} {key : α} {value : β} :
    least? m = some (key, value) ↔
      m[key]? = some value ∧ ∀ k, k ∈ m → (compare key k).isLE = true := by
  have hfst := least?_map_fst m
  constructor
  · intro h
    have hmem : (key, value) ∈ m.toList := by
      rw [least?_eq_head?_toList] at h
      exact List.mem_of_mem_head? h
    rw [h, Option.map_some, eq_comm, Std.ExtTreeMap.minKey?_eq_some_iff_mem_and_forall] at hfst
    exact ⟨Std.ExtTreeMap.mem_toList_iff_getElem?_eq_some.1 hmem, hfst.2⟩
  · rintro ⟨hget, hmin⟩
    have hm : key ∈ m := Std.ExtTreeMap.mem_iff_isSome_getElem?.2 (by simp [hget])
    rw [Std.ExtTreeMap.minKey?_eq_some_iff_mem_and_forall.2 ⟨hm, hmin⟩,
      Option.map_eq_some_iff] at hfst
    obtain ⟨⟨k, v⟩, hl, rfl⟩ := hfst
    have hmem : (k, v) ∈ m.toList := by
      rw [least?_eq_head?_toList] at hl
      exact List.mem_of_mem_head? hl
    have hv := (Std.ExtTreeMap.mem_toList_iff_getElem?_eq_some.1 hmem).symm.trans hget
    rw [hl, Option.some.inj hv]

end Multicast
