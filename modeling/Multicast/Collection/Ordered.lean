import Multicast.Collection.Rank
import Std.Data.ExtTreeMap

/-!
# `Multicast.Collection.Ordered`: lists in order

`insert` keeps a list strictly increasing and without repeats, so that a small
set has one written form. `sortStable` orders a list by a key: every element is
filed under its key and its place, so elements with equal keys keep their
order. The tree map that orders the filed elements has one entry for each of them
(`file_pairwise`), so nothing is lost or doubled (`sortStable_perm`).
-/

set_option autoImplicit false

namespace Multicast.Ordered

variable {α : Type}

/-- Puts an element into an increasing list, unless an equal one is there. -/
def insert (before : α → α → Bool) (a : α) : List α → List α
  | [] => [a]
  | b :: rest =>
    if before a b then a :: b :: rest
    else if before b a then b :: insert before a rest
    else b :: rest

/-- The increasing list of the elements of a list. -/
def ofList (before : α → α → Bool) (l : List α) : List α :=
  l.foldl (fun sorted a => insert before a sorted) []

/-- The elements of a list under their ranks: their keys and their places. -/
def file (key : α → Nat) (l : List α) : List (Rank × α) :=
  l.zipIdx.map fun (a, place) => (⟨key a, place⟩, a)

/-- Orders a list by a key; elements with equal keys keep their order. -/
def sortStable (key : α → Nat) (l : List α) : List α :=
  (Std.ExtTreeMap.ofList (file key l)).toList.map (·.2)

/-- The ranks of filed elements differ, since no two of them have the same place. This is what the
tree map asks for to keep all entries. -/
theorem file_pairwise (key : α → Nat) (l : List α) :
    (file key l).Pairwise fun a b => ¬ compare a.1 b.1 = .eq := by
  rw [file, List.pairwise_map, List.pairwise_iff_getElem]
  intro i j hi hj hij h
  have := congrArg Rank.place (Std.LawfulEqOrd.eq_of_compare h)
  simp at this
  omega

/-- Without their ranks the filed elements are the list again. -/
theorem map_file (key : α → Nat) (l : List α) : (file key l).map (·.2) = l := by
  simp [file, List.map_map, Function.comp_def]

/-- The tree map holds the filed elements and no others: no rank comes twice, so no entry pushes out
another. -/
theorem mem_toList_file {key : α → Nat} {l : List α} {x : Rank × α} :
    x ∈ (Std.ExtTreeMap.ofList (file key l)).toList ↔ x ∈ file key l := by
  obtain ⟨r, a⟩ := x
  rw [Std.ExtTreeMap.mem_toList_iff_getElem?_eq_some]
  constructor
  · intro h
    have hr : r ∈ Std.ExtTreeMap.ofList (file key l) :=
      Std.ExtTreeMap.mem_iff_isSome_getElem?.2 (by simp [h])
    rw [Std.ExtTreeMap.mem_ofList, List.contains_iff_mem, List.mem_map] at hr
    obtain ⟨⟨r', b⟩, hb, rfl⟩ := hr
    have hr : (Std.ExtTreeMap.ofList (file key l))[r']? = some b :=
      Std.ExtTreeMap.getElem?_ofList_of_mem (Std.LawfulEqOrd.compare_eq_iff_eq.2 rfl)
        (file_pairwise key l) hb
    rw [h] at hr
    rw [Option.some.inj hr]
    exact hb
  · exact fun h => Std.ExtTreeMap.getElem?_ofList_of_mem
      (Std.LawfulEqOrd.compare_eq_iff_eq.2 rfl) (file_pairwise key l) h

/-- Ordering by a key loses no element and doubles none. The entries of the tree map are the filed
elements in another order, and each of them once on both sides. -/
theorem sortStable_perm (key : α → Nat) (l : List α) : (sortStable key l).Perm l := by
  have hd : (Std.ExtTreeMap.ofList (file key l)).toList.Pairwise
      fun a b => ¬ compare a.1 b.1 = .eq :=
    Std.ExtTreeMap.distinct_keys_toList
  have h : (Std.ExtTreeMap.ofList (file key l)).toList.Perm (file key l) := by
    refine (List.perm_ext_iff_of_nodup ?_ ?_).2 fun x => mem_toList_file
    · exact hd.imp fun h heq => h (by rw [heq]; exact Std.LawfulEqOrd.compare_eq_iff_eq.2 rfl)
    · exact (file_pairwise key l).imp fun h heq =>
        h (by rw [heq]; exact Std.LawfulEqOrd.compare_eq_iff_eq.2 rfl)
  have := h.map (·.2)
  rwa [map_file] at this

end Multicast.Ordered
