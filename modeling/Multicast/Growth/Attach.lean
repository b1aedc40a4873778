import Multicast.Growth.Anchor

/-!
# `Multicast.Growth.Attach`: adding branches to a tree

A tree under construction is kept together with the index of its chips. Adding
a branch creates one node per hop and refuses a chip that is already there. A
branch refused half-way leaves behind what it had added, so the functions here
answer the tree in both cases.
-/

set_option autoImplicit false

namespace Multicast

/-- A tree under construction and the chips in it. -/
structure Growth where
  tree : RouteTree
  index : ChipIndex
deriving DecidableEq

/-- What is left after an attempt to add to a tree, and the error if it failed. -/
structure Growth.Attempt where
  growth : Growth
  error? : Option RouteError
deriving DecidableEq

namespace Growth

/-- The tree that is only a root. -/
def single (c : Chip) : Growth :=
  { tree := .single c, index := ChipIndex.empty.set c 0 }

/-- A tree with the index of the chips its walk reaches. -/
def ofTree (t : RouteTree) : Growth :=
  { tree := t, index := t.index }

/-- An attempt that succeeded. -/
def done (g : Growth) : Attempt := ⟨g, none⟩

/-- An attempt that failed. -/
def failed (g : Growth) (e : RouteError) : Attempt := ⟨g, some e⟩

/-- Adds a chain of new nodes below a node. -/
def chain (g : Growth) (last : NodeId) : List Hop → Attempt
  | [] => g.done
  | hop :: rest =>
    if g.index.contains hop.chip then g.failed (.revisited hop.chip)
    else
      let tree := g.tree.addChild last (some (.link hop.link)) hop.chip
      if last < tree.size then
        chain { tree, index := g.index.set hop.chip tree.newest } tree.newest rest
      else failed { g with tree } (.misuse (.missingNode last))

/-- Hangs a branch off the node on its anchor. -/
def append (g : Growth) (b : Anchor.Branch) : Attempt :=
  match g.index.get? b.anchor with
  | none => g.failed (.revisited b.anchor)
  | some node => g.chain node b.hops

/-- The chip of the root. -/
def rootChip (g : Growth) : Chip :=
  (g.tree.chip? g.tree.root).getD default

/-- Connects a chip to the nearest tree chip, or to the root when none is within the radius. -/
def attach (g : Growth) (grid : Grid) (c : Chip) (radius : Nat) : Attempt :=
  if g.index.contains c then g.done
  else
    let anchor := (Anchor.find grid g.index c radius).getD g.rootChip
    match grid.straightRuns anchor c with
    | .error e => g.failed e
    | .ok hops => g.append (Anchor.truncate g.index.contains anchor hops)

/-- The attempt as a result. -/
def Attempt.result (a : Attempt) : Except RouteError Growth :=
  match a.error? with
  | none => .ok a.growth
  | some e => .error e

/-- Connects chips one after another. -/
def attachAll (g : Growth) (grid : Grid) (radius : Nat) : List Chip → Except RouteError Growth
  | [] => .ok g
  | c :: rest => do
    let next ← (g.attach grid c radius).result
    next.attachAll grid radius rest

/-- Hangs an endpoint off the node on its chip. -/
def addTerminal (g : Growth) (source : Chip) (e : Endpoint) : Except RouteError Growth :=
  match g.index.get? e.chip with
  | none => .error (.noLivePath source e.chip)
  | some node => .ok { g with tree := g.tree.addEdge node ⟨some e.route, .terminal e⟩ }

/-- Hangs endpoints off the nodes on their chips. -/
def addTerminals (g : Growth) (source : Chip) : List Endpoint → Except RouteError Growth
  | [] => .ok g
  | e :: rest => do
    let next ← g.addTerminal source e
    next.addTerminals source rest

end Growth

end Multicast
