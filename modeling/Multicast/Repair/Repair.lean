import Multicast.Repair.Reconnect

/-!
# `Multicast.Repair.Repair`: a tree over working chips and links only

A repair copies the tree without what is dead, reconnects every cut-off subtree
and prunes what then forwards nowhere. The report lists what was done.
-/

set_option autoImplicit false

namespace Multicast

/-- What a repair changed. -/
structure RepairReport where
  /-- The chips at both ends of each edge that was replaced. -/
  broken : List (Chip × Chip)
  /-- The dead chips left out. -/
  dead : List Chip
  /-- The number of nodes added by detours. -/
  added : Nat
  /-- The number of nodes pruned. -/
  pruned : Nat
deriving DecidableEq

/-- The report of a tree left as it was. -/
def RepairReport.clean : RepairReport := ⟨[], [], 0, 0⟩

/-- Nothing had to be replaced or left out. -/
def RepairReport.isClean (r : RepairReport) : Bool :=
  r.broken.isEmpty && r.dead.isEmpty

/-- A repaired tree, the nodes of its chips, and the report. -/
structure Repaired where
  tree : RouteTree
  index : ChipMap
  report : RepairReport
deriving DecidableEq

/-- Rebuilds a tree over working chips and links. Pruning starts at the parents of the broken
edges and then at the parents that lost a child to a detour. -/
def Fabric.repair (f : Fabric) (t : RouteTree) : Except RouteError Repaired := do
  let cut ← f.cut t
  let mended ← Reconnect.mendAll f ⟨cut.tree, cut.index, 0, []⟩ cut.broken
  let pruned := (cut.broken.map (·.1) ++ mended.bereft.reverse).foldl Reconnect.prune
    ⟨mended.tree, mended.index, 0⟩
  return {
    tree := pruned.tree
    index := pruned.index
    report := ⟨cut.broken, cut.dead, mended.added, pruned.removed⟩ }

end Multicast
