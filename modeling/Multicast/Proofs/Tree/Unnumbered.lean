import Multicast.Proofs.Search.Rename
import Multicast.Proofs.Tree.Proper

/-!
# `Multicast.Proofs.Tree.Unnumbered`: a tree without the numbers of its nodes

The number of a node says when it came into the row. `unnumbered` writes a tree down
without: the nodes as the breadth-first walk meets them, each with the way out it is
reached by, its chip and its edges in order, where an edge names the chip it leads
to. In a proper tree a chip has one node, so this is the tree up to renumbering.

`unnumbered_eq` compares two proper trees chip by chip: where the edges agree on
every chip, the walks do too, since each comes to the nodes of the other under other
numbers (`Search.Renaming`).
-/

set_option autoImplicit false

namespace Multicast.RouteTree

/-- An edge that names the chip of the node it leads to. -/
structure Exit where
  route : Option Route
  target : Option Chip ⊕ Endpoint
deriving DecidableEq

/-- A node as a walk meets it. -/
structure Sight where
  arrival : Option Route
  chip : Option Chip
  exits : List Exit
deriving DecidableEq

/-- An edge without the number of the node it leads to. -/
def exit (t : RouteTree) (e : Edge) : Exit :=
  match e.child with
  | .node n => ⟨e.route, .inl (t.chip? n)⟩
  | .terminal x => ⟨e.route, .inr x⟩

/-- The edges of a node, in order. -/
def exits (t : RouteTree) (n : NodeId) : List Exit :=
  (t.edges n).map t.exit

/-- The nodes below the root in breadth-first order, each with its chip for its number. -/
def unnumbered (t : RouteTree) : List Sight :=
  t.breadthFirst.map fun x => ⟨x.1, t.chip? x.2, t.exits x.2⟩

/-- The chip that an edge to a node leads to, with the way out. -/
def Exit.onto? (x : Exit) : Option (Option Route × Option Chip) :=
  match x.target with
  | .inl c => some (x.route, c)
  | .inr _ => none

variable {t u : RouteTree} {m n p : NodeId} {c : Chip}

/-- The exits tell where a walk goes from a node, by chips. -/
theorem map_chip?_childNodes (t : RouteTree) (n : NodeId) :
    (t.childNodes n).map (fun x => (x.1, t.chip? x.2)) = (t.exits n).filterMap Exit.onto? := by
  rw [childNodes, exits, List.map_filterMap, List.filterMap_map]
  refine List.filterMap_congr fun e _ => ?_
  obtain ⟨route, child⟩ := e
  cases child <;> rfl

/-- A root alone has no exits. -/
@[simp] theorem exits_single (c : Chip) (n : NodeId) : (single c).exits n = [] := by
  cases n <;> rfl

/-- A new node changes no edge. -/
theorem exits_addNode (c : Chip) (hlt : ∀ k ∈ t.kids n, k < t.size) :
    (t.addNode c).exits n = t.exits n := by
  rw [exits, edges_addNode]
  refine List.map_congr_left fun e he => ?_
  obtain ⟨route, child⟩ := e
  cases child with
  | node k =>
      have hk := hlt k (List.mem_filterMap.2 ⟨_, he, rfl⟩)
      simp only [exit, chip?_addNode, if_neg (Nat.ne_of_lt hk)]
  | terminal x => rfl

/-- An edge that is added does not change what others lead to. -/
@[simp] theorem exit_addEdge (t : RouteTree) (p : NodeId) (e e' : Edge) :
    (t.addEdge p e).exit e' = t.exit e' := by
  unfold exit
  split <;> simp

/-- An edge that is added is one exit more, the last. -/
theorem exits_addEdge (hp : p < t.size) (e : Edge) (n : NodeId) :
    (t.addEdge p e).exits n = if n = p then t.exits n ++ [t.exit e] else t.exits n := by
  rw [exits, edges_addEdge hp]
  split <;> simp [exits]

/-- What a walk goes on to from a node below the root is below the root. -/
theorem below_root_of_mem_childNodes (hn : t.Below t.root n) {x : Option Route × NodeId}
    (hx : x ∈ t.childNodes n) : t.Below t.root x.2 :=
  hn.step (mem_kids.2 ⟨x.1, hx⟩)

/-- The way a node is reached by does not depend on the numbers. -/
theorem arrivalRoute_rename (σ : NodeId → NodeId) (a : Search.Arrival NodeId (Option Route)) :
    arrivalRoute (a.rename σ) = arrivalRoute a := by
  obtain ⟨node, via⟩ := a
  cases via <;> rfl

/-- The walk of one tree is that of another under other numbers. -/
theorem arrivals_of_renaming {σ : NodeId → NodeId} (ht : t.IsProper) (hu : u.IsProper)
    (hσ : Search.Renaming σ (t.Below t.root) t.childNodes u.childNodes)
    (hroot : σ t.root = u.root) :
    u.arrivals = t.arrivals.map (Search.Arrival.rename σ) := by
  -- The rows may differ in length, but neither walk needs more steps than it has.
  have hbound : ∀ {v : RouteTree}, v.IsProper → ∀ bound, v.size + 1 ≤ bound →
      v.arrivals = Search.breadthFirst v.childNodes bound v.root := by
    intro v hv bound hbound
    have hrow : ∀ n, v.Below v.root n → n ∈ List.range v.size := fun n hn =>
      List.mem_range.2 (hv.lt_size hn)
    rw [arrivals, Search.breadthFirst, Search.breadthFirst,
      Search.walk_of_le _ _ hrow (by simp) hbound]
  rw [hbound hu (max (t.size + 1) (u.size + 1)) (Nat.le_max_right ..),
    hbound ht (max (t.size + 1) (u.size + 1)) (Nat.le_max_left ..), ← hroot]
  exact hσ.breadthFirst_eq .refl _

/-- The number in a tree of the node on a chip. -/
def numberOf (u : RouteTree) (c : Option Chip) : NodeId :=
  (c.bind u.index.get?).getD 0

/-- In a proper tree a node is found by its chip. -/
theorem IsProper.numberOf_chip? (hu : u.IsProper) (hm : u.Below u.root m) :
    u.numberOf (u.chip? m) = m := by
  obtain ⟨c, hc⟩ := exists_chip?_iff.2 (hu.lt_size hm)
  rw [numberOf, hc, Option.bind_some, hu.get?_index.2 ⟨hm, hc⟩, Option.getD_some]

section Alike

variable (ht : t.IsProper) (hu : u.IsProper) (hroot : u.chip? u.root = t.chip? t.root)
  (hexits : ∀ {n m}, t.Below t.root n → u.Below u.root m → u.chip? m = t.chip? n →
    u.exits m = t.exits n)
include hexits

/-- Edges that agree as exits lead to the same chips. -/
theorem chips_childNodes_eq (hn : t.Below t.root n) (hm : u.Below u.root m)
    (hchip : u.chip? m = t.chip? n) :
    (u.childNodes m).map (fun x => (x.1, u.chip? x.2)) =
      (t.childNodes n).map fun x => (x.1, t.chip? x.2) := by
  rw [map_chip?_childNodes, map_chip?_childNodes, hexits hn hm hchip]

include hroot

/-- Below the root every node has one of its chip in the other tree. -/
theorem exists_chip?_eq (hn : t.Below t.root n) :
    ∃ m, u.Below u.root m ∧ u.chip? m = t.chip? n := by
  refine hn.induct (motive := fun n => ∃ m, u.Below u.root m ∧ u.chip? m = t.chip? n)
    ⟨u.root, .refl, hroot⟩ ?_
  rintro p k hp hk ⟨m, hm, hchip⟩
  obtain ⟨route, hk⟩ := mem_kids.1 hk
  have hmem : (route, t.chip? k) ∈ (u.childNodes m).map fun x => (x.1, u.chip? x.2) := by
    rw [chips_childNodes_eq hexits hp hm hchip]
    exact List.mem_map.2 ⟨_, hk, rfl⟩
  obtain ⟨x, hx, heq⟩ := List.mem_map.1 hmem
  exact ⟨x.2, below_root_of_mem_childNodes hm hx, (Prod.mk.inj heq).2⟩

include hu

/-- The number found by the chip of a node of the other tree is that of a node on this chip. -/
theorem chip?_numberOf (hn : t.Below t.root n) :
    u.Below u.root (u.numberOf (t.chip? n)) ∧ u.chip? (u.numberOf (t.chip? n)) = t.chip? n := by
  obtain ⟨m, hm, hchip⟩ := exists_chip?_eq hroot hexits hn
  rw [← hchip, hu.numberOf_chip? hm]
  exact ⟨hm, rfl⟩

include ht

/-- Going over from a node to the one on its chip carries one tree over to the other. -/
theorem renaming_numberOf : Search.Renaming (fun n => u.numberOf (t.chip? n)) (t.Below t.root)
    t.childNodes u.childNodes where
  closed hn hx := below_root_of_mem_childNodes hn hx
  inj {m n} hm hn heq := by
    refine ht.eq_of_chip? hm hn ?_
    rw [← (chip?_numberOf hu hroot hexits hm).2, ← (chip?_numberOf hu hroot hexits hn).2]
    exact congrArg u.chip? heq
  next {n} hn := by
    obtain ⟨hm, hchip⟩ := chip?_numberOf hu hroot hexits hn
    generalize u.numberOf (t.chip? n) = m at hm hchip
    -- In the other tree the chip of a node determines its number.
    have hback : ((u.childNodes m).map fun x => (x.1, u.chip? x.2)).map
        (fun x => (x.1, u.numberOf x.2)) = u.childNodes m := by
      rw [List.map_map, List.map_congr_left (g := id), List.map_id]
      intro x hx
      exact Prod.ext rfl (hu.numberOf_chip? (below_root_of_mem_childNodes hm hx))
    rw [← hback, chips_childNodes_eq hexits hn hm hchip, List.map_map]
    rfl

/-- Proper trees with the same root chip and the same edges on every chip differ at most in the
numbers of their nodes. -/
theorem unnumbered_eq : u.unnumbered = t.unnumbered := by
  have hstart : u.numberOf (t.chip? t.root) = u.root := by
    rw [← hroot, hu.numberOf_chip? .refl]
  rw [unnumbered, unnumbered, breadthFirst, breadthFirst,
    arrivals_of_renaming ht hu (renaming_numberOf ht hu hroot hexits) hstart]
  simp only [List.map_map]
  refine List.map_congr_left fun a ha => ?_
  have hbelow := ht.mem_reached.1 (List.mem_map_of_mem ha)
  obtain ⟨hm, hchip⟩ := chip?_numberOf hu hroot hexits hbelow
  simp only [Function.comp_apply, arrivalRoute_rename]
  exact congrArg₂ (Sight.mk _) hchip (hexits hbelow hm hchip)

end Alike

end Multicast.RouteTree
