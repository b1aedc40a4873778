import Multicast.Diagnostic.Code
import Multicast.Misuse
import Multicast.Traffic.Partition

/-!
# `Multicast.RouteError`: why routing fails

Every error ends the routing of the net at hand; none becomes a partial result.
Each has a text, a diagnostic code and, for most, the chip it is about.
-/

set_option autoImplicit false

namespace Multicast

/-- The place of an entity in its graph. -/
abbrev EntityId := Nat

/-- What is wrong with the coefficients of link costs. -/
inductive WeightFault where
  /-- The cost of a hop is not positive. -/
  | hopCost
  /-- Another coefficient is negative. -/
  | coefficient
deriving DecidableEq

/-- What is wrong, in words. -/
def WeightFault.reason : WeightFault → String
  | hopCost => "k must be positive"
  | coefficient => "l, m and bandwidth_per_route must not be negative"

/-- Why building, repairing or writing down a route fails. -/
inductive RouteError where
  /-- No path over working links joins two chips. -/
  | noLivePath (source target : Chip)
  /-- A source sits on a dead chip. -/
  | deadRoot (chip : Chip)
  /-- Two routes want different ways out for one table entry. -/
  | conflict (chip : Chip) (partition : Partition)
  /-- A chip would be in the tree twice. -/
  | revisited (chip : Chip)
  /-- No neighbour explains the recorded cost of a chip. -/
  | unexplainedCost (chip origin : Chip)
  /-- A partition names an entity the graph does not have. -/
  | unknownEntity (entity : EntityId)
  /-- An entity without a core has to send or to be reached. -/
  | noCore (entity : EntityId)
  /-- An endpoint lies off the grid. -/
  | offMachine (chip : Chip)
  /-- Routing was called off. -/
  | cancelled
  /-- The coefficients of link costs are out of range. -/
  | invalidWeights (fault : WeightFault)
  /-- A precondition was not met. -/
  | misuse (misuse : Misuse)
deriving DecidableEq

namespace RouteError

/-- The text of an error. -/
def message : RouteError → String
  | noLivePath source target => s!"no live path from {source.text} to {target.text}"
  | deadRoot chip => s!"cannot root a route at dead chip {chip.text}"
  | conflict chip partition =>
    s!"conflicting routes for partition {partition.text} at {chip.text}"
  | revisited chip => s!"route would revisit {chip.text}"
  | unexplainedCost chip origin =>
    s!"cost retrace towards {origin.text} failed at {chip.text}"
  | unknownEntity entity => s!"unknown entity {entity}"
  | noCore entity => s!"entity {entity} has no physical endpoint"
  | offMachine chip => s!"endpoint chip {chip.text} is outside the machine"
  | cancelled => "routing cancelled"
  | invalidWeights fault => s!"invalid link weights: {fault.reason}"
  | misuse m => m.message

/-- The number of the diagnostic that reports an error. -/
def number : RouteError → Nat
  | noLivePath _ _ => 301
  | deadRoot _ => 302
  | conflict _ _ => 303
  | revisited _ => 304
  | unexplainedCost _ _ => 305
  | unknownEntity _ => 306
  | noCore _ => 307
  | offMachine _ => 308
  | cancelled => 309
  | invalidWeights _ => 310
  | misuse _ => 311

/-- The code of the diagnostic that reports an error. -/
def code (e : RouteError) : Code :=
  ⟨.error, e.number⟩

/-- The chip an error is about. A path that does not exist is about where it would start. -/
def chip? : RouteError → Option Chip
  | noLivePath source _ => some source
  | deadRoot chip => some chip
  | conflict chip _ => some chip
  | revisited chip => some chip
  | unexplainedCost chip _ => some chip
  | offMachine chip => some chip
  | _ => none

end RouteError

/-- Two steps succeed when the first does and the second does with what it gave. -/
theorem bind_eq_ok {ε α β : Type} {x : Except ε α} {next : α → Except ε β} {b : β} :
    x >>= next = .ok b ↔ ∃ a, x = .ok a ∧ next a = .ok b := by
  cases x <;> simp [bind, Except.bind]

/-- Two steps fail when the first does, or the second does with what the first gave. -/
theorem bind_eq_error {ε α β : Type} {x : Except ε α} {next : α → Except ε β} {e : ε} :
    x >>= next = .error e ↔ x = .error e ∨ ∃ a, x = .ok a ∧ next a = .error e := by
  cases x <;> simp [bind, Except.bind]

/-- A step that is seen to succeed gives something. -/
theorem exists_of_isOk {ε α : Type} {x : Except ε α} (h : x.isOk = true) : ∃ a, x = .ok a := by
  cases x with
  | ok a => exact ⟨a, rfl⟩
  | error e => contradiction

end Multicast
