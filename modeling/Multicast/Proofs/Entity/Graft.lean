import Multicast.Entity.Graft
import Multicast.Proofs.Growth.Attach

/-!
# `Multicast.Proofs.Entity.Graft`: trees put together from pieces

Whatever is grafted, appended or attached, the tree of a source stays a tree with one
node on a chip, and its root stays where it is: `Growth.Rooted` is the invariant, and
each way of adding a piece keeps it. Nothing is said here about which nodes forward
nowhere. A piece that meets the tree half-way is cut there, and what led to the part
cut off may be left behind as a dead end.
-/

set_option autoImplicit false

namespace Multicast.Growth

/-- A tree with its index and without endpoints, whose root is on a given chip. -/
structure Rooted (c : Chip) (g : Growth) : Prop where
  sound : Sound (fun _ => True) [] g
  root : g.index.get? c = some 0

variable {f : Fabric} {g g' : Growth} {c start exit : Chip} {hops : List Hop} {radius : Nat}
  {source : EntityId} {nearEnd : Thunk (Option LocalTree)}

/-- The tree of one chip is rooted on it. -/
theorem rooted_single (c : Chip) : Rooted c (single c) where
  sound := sound_single c _
  root := (sound_single c fun _ => True).indexed.2 rfl

namespace Rooted

/-- A tree that kept its chips kept its root. -/
theorem gain (h : Rooted c g) {excused : Chip → Prop} (hsound : Sound excused [] g')
    {chips : List Chip} (hgains : Gains g g' chips) : Rooted c g' where
  sound := hsound.mono fun _ _ => trivial
  root := hgains.kept h.root

/-- An edge is grafted from a chip in the tree to one that is not, or not at all, so no chip gets a
second node. -/
theorem graftEdge (h : Rooted c g) (edge : Search.Step Chip Direction) :
    Rooted c (g.graftEdge edge) := by
  unfold Growth.graftEdge
  split
  · exact h
  · next hnew =>
    split
    · exact h
    · next parent hparent =>
      -- An edge is grafted only from a chip in the tree to one that is not.
      have hnew : g.index.get? edge.target = none := by
        simpa [ChipIndex.contains_eq_isSome] using hnew
      have hsound := (h.sound.mono fun _ _ => .inl trivial).addChild
        (h.sound.indexed.1 hparent) hnew (some (.link edge.edge))
      simp only [RouteTree.newest_addChild]
      exact h.gain hsound (Gains.addChild hnew parent _)

/-- Edges are grafted one after another, each onto the tree that the ones before have left. -/
theorem graftEdges (h : Rooted c g) (edges : List (Search.Step Chip Direction)) :
    Rooted c (edges.foldl Growth.graftEdge g) := by
  induction edges generalizing g with
  | nil => exact h
  | cons edge edges ih => exact ih (h.graftEdge edge)

/-- A local tree is grafted edge by edge when the tree has its root, and left out otherwise. -/
theorem graft (h : Rooted c g) (piece : Option LocalTree) : Rooted c (g.graft piece) := by
  cases piece with
  | none => exact h
  | some tree =>
      rw [Growth.graft]
      split
      · exact h.graftEdges tree.edges
      · exact h

/-- What is appended of a path is the part behind its last chip in the tree. That part is added hop
by hop, and the answer says so when a chip of it is there already. -/
theorem appendPath (h : Rooted c g) (hok : g.appendPath start hops = .ok g') : Rooted c g' := by
  obtain ⟨hdone, rfl⟩ := Attempt.result_eq_ok.1 hok
  obtain ⟨hsound, hgains, -⟩ := h.sound.append hdone
  exact h.gain hsound hgains

/-- A chip is attached by a branch from the tree, or is there already. -/
theorem attach (h : Rooted c g) {a : Chip} (hok : (g.attach f.toGrid a radius).result = .ok g') :
    Rooted c g' := by
  obtain ⟨hdone, rfl⟩ := Attempt.result_eq_ok.1 hok
  obtain ⟨chips, hsound, hgains⟩ := h.sound.attach hdone
  exact h.gain hsound hgains

/-- Chips are attached one after another. -/
theorem attachAll (h : Rooted c g) {chips : List Chip}
    (hok : g.attachAll f.toGrid radius chips = .ok g') : Rooted c g' := by
  obtain ⟨hsound, new, hgains⟩ := h.sound.attachAll hok
  exact h.gain hsound hgains

/-- The exit of a corridor is reached inside the entity if the local tree has a path to it, else as
any chip is attached. -/
theorem reachExit (h : Rooted c g) {piece : Option LocalTree}
    (hok : g.reachExit f radius start exit piece = .ok g') : Rooted c g' := by
  unfold Growth.reachExit at hok
  split at hok
  · exact h.appendPath hok
  · exact h.attach hok

/-- From the exit of a corridor the corridor is appended, and what lies at its far end grafted. -/
theorem join (h : Rooted c g) {far : Option LocalTree}
    (hok : (do let joined ← g.appendPath exit hops; return joined.graft far) = .ok g') :
    Rooted c g' := by
  obtain ⟨joined, hjoined, hok⟩ := bind_eq_ok.1 hok
  obtain rfl := Except.ok.inj hok
  exact (h.appendPath hjoined).graft far

/-- The pieces that lead to one target. -/
theorem graftLeg (h : Rooted c g) {leg : Leg}
    (hok : g.graftLeg f radius source start nearEnd leg = .ok g') : Rooted c g' := by
  unfold Growth.graftLeg at hok
  split at hok
  · obtain rfl := Except.ok.inj hok
    exact h.graft nearEnd.get
  · cases hcorridor : leg.corridor.get with
    | error e =>
        rw [hcorridor] at hok
        contradiction
    | ok corridor =>
        rw [hcorridor] at hok
        -- With the corridor known, its exit is in the tree already or is reached first.
        change (if g.index.contains corridor.exit = true then _ else _ >>= _) = _ at hok
        split at hok
        · exact h.join hok
        · obtain ⟨atExit, hexit, hok⟩ := bind_eq_ok.1 hok
          exact (h.reachExit hexit).join hok

/-- The pieces that lead to all targets. -/
theorem graftLegs (h : Rooted c g) {legs : List Leg}
    (hok : g.graftLegs f radius source start nearEnd legs = .ok g') : Rooted c g' := by
  induction legs generalizing g with
  | nil => exact Except.ok.inj hok ▸ h
  | cons leg rest ih =>
      obtain ⟨next, hnext, hok⟩ := bind_eq_ok.1 hok
      exact ih (h.graftLeg hnext) hok

end Rooted

end Multicast.Growth
