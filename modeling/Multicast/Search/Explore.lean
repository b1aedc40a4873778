import Multicast.Collection.Least
import Multicast.Collection.Rank
import Std.Data.ExtTreeMap
import Std.Data.ExtTreeSet

/-!
# `Multicast.Search.Explore`: walking a graph from one node

One walk serves every search. It keeps the nodes found but not yet taken under
their ranks, takes one of the smallest rank, finds its unseen neighbours, and
goes on until it takes a node it was told to stop at or none is left. A node
counts as seen from the moment it is found. What differs is the key of a rank:

- `breadthFirst` gives every node the same key, so they are taken as found;
- `depthFirst` gives a smaller key to every later find;
- `bestFirst` takes the key of the node itself.

The trail lists the nodes taken, each with the edge it was found over, and
`routeBack` follows those edges from a node to the start. A walk takes at most
as many nodes as its bound allows; a bound on the number of nodes that can be
found is always enough.
-/

set_option autoImplicit false

namespace Multicast.Search

variable {α ε : Type}

/-- A node as a walk came to it: from which node and over which edge, or neither for the start. -/
structure Arrival (α ε : Type) where
  node : α
  via : Option (α × ε)
deriving DecidableEq

/-- One edge of a route. -/
structure Step (α ε : Type) where
  source : α
  edge : ε
  target : α
deriving DecidableEq

/-- A walk under way. -/
structure Walk (α ε : Type) [Ord α] [Std.TransOrd α] where
  /-- Every node found. -/
  seen : Std.ExtTreeSet α
  /-- The nodes found and not yet taken. -/
  pending : Std.ExtTreeMap Rank (Arrival α ε)
  /-- The number of nodes found. -/
  found : Nat
  /-- The nodes taken, latest first. -/
  trail : List (Arrival α ε)

variable [Ord α] [Std.TransOrd α]

namespace Walk

/-- A walk that has found nothing. -/
def empty : Walk α ε := ⟨∅, ∅, 0, []⟩

/-- Finds a node. -/
def find (key : α → Nat → Int) (w : Walk α ε) (a : Arrival α ε) : Walk α ε :=
  { w with
    seen := w.seen.insert a.node
    pending := w.pending.insert ⟨key a.node w.found, w.found⟩ a
    found := w.found + 1 }

/-- Finds a neighbour of a node, unless it is seen. -/
def findNeighbour (key : α → Nat → Int) (source : α) (w : Walk α ε) (neighbour : ε × α) :
    Walk α ε :=
  if w.seen.contains neighbour.2 then w
  else w.find key ⟨neighbour.2, some (source, neighbour.1)⟩

/-- Takes the pending node of the smallest rank. -/
def take? (w : Walk α ε) : Option (α × Walk α ε) :=
  match least? w.pending with
  | none => none
  | some (rank, a) =>
    some (a.node, { w with pending := w.pending.erase rank, trail := a :: w.trail })

/-- Only a walk with nothing pending takes nothing. -/
theorem pending_eq_empty_of_take? {w : Walk α ε} (h : w.take? = none) : w.pending = ∅ := by
  unfold take? at h
  split at h
  · next hl => exact least?_eq_none_iff.1 hl
  · contradiction

/-- What a walk takes has the smallest rank of all that is pending. -/
theorem take?_eq_some_iff {w next : Walk α ε} {node : α} :
    w.take? = some (node, next) ↔
      ∃ rank a, w.pending[rank]? = some a ∧
        (∀ r, r ∈ w.pending → (compare rank r).isLE = true) ∧ a.node = node ∧
        next = { w with pending := w.pending.erase rank, trail := a :: w.trail } := by
  unfold take?
  constructor
  · intro h
    split at h
    · contradiction
    · next rank a hl =>
      obtain ⟨rfl, rfl⟩ := Prod.mk.inj (Option.some.inj h)
      exact ⟨rank, a, (least?_eq_some_iff.1 hl).1, (least?_eq_some_iff.1 hl).2, rfl, rfl⟩
  · rintro ⟨rank, a, ha, hmin, rfl, rfl⟩
    rw [least?_eq_some_iff.2 ⟨ha, hmin⟩]

/-- Takes nodes until one is taken to stop at. -/
def explore (key : α → Nat → Int) (next : α → List (ε × α)) (stop : α → Bool) :
    Nat → Walk α ε → Walk α ε
  | 0, w => w
  | bound + 1, w =>
    match w.take? with
    | none => w
    | some (node, taken) =>
      if stop node then taken
      else explore key next stop bound ((next node).foldl (findNeighbour key node) taken)

end Walk

/-- The walk from a start, up to the first node to stop at. -/
def walk (key : α → Nat → Int) (next : α → List (ε × α)) (stop : α → Bool) (bound : Nat)
    (start : α) : Walk α ε :=
  Walk.explore key next stop bound (Walk.empty.find key ⟨start, none⟩)

/-- The key under which nodes are taken as they were found. -/
def asFound (_ : α) (_ : Nat) : Int := 0

/-- The key under which nodes found later are taken earlier. -/
def lastFound (_ : α) (found : Nat) : Int := -found

/-- Nodes in the order of their distance from the start. -/
def breadthFirst (next : α → List (ε × α)) (bound : Nat) (start : α) : List (Arrival α ε) :=
  (walk asFound next (fun _ => false) bound start).trail.reverse

/-- Nodes branch by branch, the neighbour found last first. -/
def depthFirst (next : α → List (ε × α)) (bound : Nat) (start : α) : List (Arrival α ε) :=
  (walk lastFound next (fun _ => false) bound start).trail.reverse

variable [DecidableEq α]

/-- The edges from the start to a node, before those of `onward`, from the nodes taken, latest
first. -/
def routeBack : List (Arrival α ε) → α → List (Step α ε) → List (Step α ε)
  | [], _, onward => onward
  | a :: earlier, b, onward =>
    if a.node = b then
      match a.via with
      | none => onward
      | some (source, edge) => routeBack earlier source (⟨source, edge, b⟩ :: onward)
    else routeBack earlier b onward

/-- The edges over which a walk came from its start to a node. -/
def route (arrivals : List (Arrival α ε)) (b : α) : List (Step α ε) :=
  routeBack arrivals.reverse b []

/-- The end of a walk: the node it stopped at, if it stopped, and the edges that led there. -/
def Walk.goal? (stop : α → Bool) (w : Walk α ε) : Option (α × List (Step α ε)) :=
  match w.trail with
  | [] => none
  | last :: _ => if stop last.node then some (last.node, routeBack w.trail last.node []) else none

/-- A nearest goal, with the edges of a shortest route there. -/
def nearest (next : α → List (ε × α)) (isGoal : α → Bool) (bound : Nat) (start : α) :
    Option (α × List (Step α ε)) :=
  (walk asFound next isGoal bound start).goal? isGoal

/-- The first goal met when nodes are taken by their keys, those found first in front among equal
keys, with the edges that led there. -/
def bestFirst (key : α → Nat) (next : α → List (ε × α)) (isGoal : α → Bool) (bound : Nat)
    (start : α) : Option (α × List (Step α ε)) :=
  (walk (fun a _ => key a) next isGoal bound start).goal? isGoal

end Multicast.Search
