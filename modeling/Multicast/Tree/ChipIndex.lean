import Multicast.Tree.Basic
import Std.Data.ExtTreeMap

/-!
# `Multicast.Tree.ChipIndex`: the nodes of a tree by chip

A `ChipMap` says which node of a tree is on a chip. A `ChipIndex` also keeps the
chips in the order in which they first came, which is the order in which a
growing tree is scanned. Setting a chip that is there gives it another node and
leaves it in its place. The main statements are the look-up rule `get?_set` and
that the two sides agree (`mem_chips`).
-/

set_option autoImplicit false

namespace Multicast

/-- The nodes of a tree by chip. -/
abbrev ChipMap := Std.ExtTreeMap Chip NodeId

/-- The nodes of a tree by chip, with the chips in the order in which they came. -/
structure ChipIndex where
  nodes : ChipMap
  /-- The chips, latest first. -/
  latest : List Chip
  mem_latest : ∀ c, c ∈ latest ↔ c ∈ nodes
deriving DecidableEq

namespace ChipIndex

/-- No chips. -/
def empty : ChipIndex :=
  { nodes := ∅, latest := [], mem_latest := fun c => by simp }

/-- The node on a chip. -/
def get? (m : ChipIndex) (c : Chip) : Option NodeId :=
  m.nodes[c]?

/-- Whether a chip is there. -/
def contains (m : ChipIndex) (c : Chip) : Bool :=
  m.nodes.contains c

/-- Puts a node on a chip. -/
def set (m : ChipIndex) (c : Chip) (n : NodeId) : ChipIndex where
  nodes := m.nodes.insert c n
  latest := if m.nodes.contains c then m.latest else c :: m.latest
  mem_latest := fun b => by
    rw [Std.ExtTreeMap.mem_insert, Std.LawfulEqOrd.compare_eq_iff_eq]
    split
    · next h =>
      rw [m.mem_latest]
      exact ⟨.inr, fun hb => hb.elim (fun hb => hb ▸ Std.ExtTreeMap.mem_iff_contains.2 h) id⟩
    · rw [List.mem_cons, m.mem_latest]
      exact or_congr_left eq_comm

/-- The chips, in the order in which they came. -/
def chips (m : ChipIndex) : List Chip :=
  m.latest.reverse

/-- The number of chips. -/
def size (m : ChipIndex) : Nat :=
  m.nodes.size

/-- No chip has a node before any is put there. -/
@[simp] theorem get?_empty (c : Chip) : empty.get? c = none := by
  simp [get?, empty]

/-- The chip set has the node given, and every other chip the node it had. -/
theorem get?_set (m : ChipIndex) (c b : Chip) (n : NodeId) :
    (m.set c n).get? b = if b = c then some n else m.get? b := by
  simp only [get?, set, Std.ExtTreeMap.getElem?_insert, Std.LawfulEqOrd.compare_eq_iff_eq,
    @eq_comm _ c b]

/-- A chip is there when it has a node. -/
theorem contains_eq_isSome (m : ChipIndex) (c : Chip) : m.contains c = (m.get? c).isSome := by
  simp [contains, get?]

/-- The chips listed are those with a node. -/
theorem mem_chips {m : ChipIndex} {c : Chip} : c ∈ m.chips ↔ m.contains c = true := by
  rw [chips, List.mem_reverse, m.mem_latest, contains, Std.ExtTreeMap.contains_iff_mem]

end ChipIndex

end Multicast
