import Multicast.Entity.Graph
import Multicast.Growth.Anchor
import Multicast.Search.Explore

/-!
# `Multicast.Entity.Corridor`: the way from one entity to another

Two entities are joined by one path, which every net between them shares. It
follows the straight runs from the first chip of one to the first chip of the
other, with a shortest detour to the next working chip wherever a run is broken.
Loops are cut out, and so is what lies inside either entity.
-/

set_option autoImplicit false

namespace Multicast

/-- The part of a path between two entities that lies outside both. -/
structure Corridor where
  /-- The last chip of the sending entity on the path. -/
  exit : Chip
  /-- The hops to the first chip of the receiving entity. -/
  hops : List Hop
deriving DecidableEq

namespace Corridor

/-- The chip a corridor ends on. -/
def entry (c : Corridor) : Chip :=
  Grid.endOf c.exit c.hops

/-- The shortest path over working links between two chips. -/
def bridge (f : Fabric) (source target : Chip) : Except RouteError (List Hop) :=
  let next := fun c => (f.liveLinks c).map fun hop => (hop.link, hop.chip)
  match Search.nearest next (fun c => c == target) (f.size + 1) source with
  | some (_, steps) => .ok (steps.map fun step => ⟨step.edge, step.target⟩)
  | none => .error (.noLivePath source target)

/-- Follows hops from a chip towards a target over working links. `broken` says that the hop to
follow has already been found not to work; hops are then passed over up to one that lands on a
working chip, and a bridge leads there. -/
def walk (f : Fabric) (target : Chip) (broken : Bool) (c : Chip) :
    List Hop → Except RouteError (List Hop)
  | [] => if broken then .error (.noLivePath c target) else .ok []
  | hop :: rest =>
    if !broken && f.isLink c hop.link then do
      let onward ← walk f target false hop.chip rest
      return hop :: onward
    else if f.isChip hop.chip then do
      let around ← bridge f c hop.chip
      let onward ← walk f target false hop.chip rest
      return around ++ onward
    else walk f target true c rest

/-- A path that visits no chip twice. -/
structure Loopless where
  /-- The hops, latest first. -/
  hops : List Hop
  /-- The chips visited, the first one too. -/
  visited : Std.ExtTreeSet Chip

/-- Takes hops back until one that lands on a chip, or none, is left. -/
def cutBack (c : Chip) : List Hop → Std.ExtTreeSet Chip → Loopless
  | [], visited => ⟨[], visited⟩
  | hop :: earlier, visited =>
    if hop.chip = c then ⟨hop :: earlier, visited⟩
    else cutBack c earlier (visited.erase hop.chip)

/-- Adds a hop to a path: a chip visited before cuts the path back to that visit. -/
def addHop (path : Loopless) (hop : Hop) : Loopless :=
  if path.visited.contains hop.chip then cutBack hop.chip path.hops path.visited
  else ⟨hop :: path.hops, path.visited.insert hop.chip⟩

/-- Cuts every loop out of a path. -/
def removeLoops (start : Chip) (hops : List Hop) : List Hop :=
  (hops.foldl addHop ⟨[], (∅ : Std.ExtTreeSet Chip).insert start⟩).hops.reverse

/-- The hops up to the first that lands inside, or all. -/
def takeThrough (inside : Chip → Bool) : List Hop → List Hop
  | [] => []
  | hop :: rest => if inside hop.chip then [hop] else hop :: takeThrough inside rest

/-- The part of a loop-free path from the last chip of the sending to the first of the receiving
entity. -/
def between (inSource inTarget : Chip → Bool) (start : Chip) (hops : List Hop) : Corridor :=
  let rest := Anchor.truncate inSource start hops
  ⟨rest.anchor, takeThrough inTarget rest.hops⟩

/-- The first of some chips; an entity that has none cannot take part. -/
def firstChip (e : EntityId) : List Chip → Except RouteError Chip
  | [] => .error (.noCore e)
  | c :: _ => .ok c

end Corridor

/-- The corridor between two entities. -/
def EntityGraph.corridor (g : EntityGraph) (f : Fabric) (source target : EntityId) :
    Except RouteError Corridor := do
  let sourceChips ← g.coreChips source
  let start ← Corridor.firstChip source sourceChips
  let targetChips ← g.insideChips target
  let goal ← Corridor.firstChip target targetChips
  if f.isChip start then
    let straight ← f.straightRuns start goal
    let path ← Corridor.walk f goal false start straight
    let inSource := Std.ExtTreeSet.ofList sourceChips
    let inTarget := Std.ExtTreeSet.ofList targetChips
    return Corridor.between inSource.contains inTarget.contains start
      (Corridor.removeLoops start path)
  else .error (.deadRoot start)

end Multicast
