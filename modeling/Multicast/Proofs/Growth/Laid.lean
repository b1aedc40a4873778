import Mathlib.Algebra.Ring.Nat
import Multicast.Proofs.Growth.Attach
import Multicast.Proofs.Growth.StraightRuns

/-!
# `Multicast.Proofs.Growth.Laid`: trees laid along straight runs

`Laid` is the invariant of a tree that grows from a source on a grid. Besides being
`Growth.Sound` the tree has all its chips on the grid, its edges obey a rule, and it has
no more nodes than a path of its own to each sink attached so far would need.

A branch adds a node for each of its hops (`append_adds`). The one to a new chip is cut
from a shortest path that starts from a nearest chip of the tree, so it is no longer
than the source is far from the chip, as the source is in the tree too
(`Laid.startOf_spec`, `Laid.exists_fits`). Hanging it up keeps the invariant
(`Laid.append`), hence so does attaching a list of chips (`Laid.attachAll`).

The rule is left open. It has to hold along the path to each new chip (`PathsObey`), as
the rule to follow the links of the grid does (`pathsObey_step`).
-/

set_option autoImplicit false

namespace Multicast.Growth

open Grid (endOf)

variable {g : Growth} {grid : Grid} {rule : Chip → Direction → Chip → Prop} {excused : Chip → Prop}
  {hung : List Endpoint} {source a b c : Chip} {sinks chips : List Chip} {hops : List Hop}
  {p : NodeId} {radius : Nat}

/-! ### What a branch adds -/

/-- The hops of a path obey a rule, each seen from the chip before it. -/
def Along (rule : Chip → Direction → Chip → Prop) : Chip → List Hop → Prop
  | _, [] => True
  | a, hop :: rest => rule a hop.link hop.chip ∧ Along rule hop.chip rest

/-- What holds along a path holds along its part behind some of its hops. -/
theorem Along.of_append {skipped : List Hop} (h : Along rule a (skipped ++ hops)) :
    Along rule (endOf a skipped) hops := by
  induction skipped generalizing a with
  | nil => exact h
  | cons hop rest ih =>
      rw [Grid.endOf_cons]
      exact ih h.2

/-- The hops of a walk obey the rule that each is a step of the grid. -/
theorem along_of_isWalk (h : grid.IsWalk a hops b) :
    Along (fun a d c => grid.step a d = some c) a hops := by
  induction hops generalizing a with
  | nil => trivial
  | cons hop rest ih => exact ⟨h.1, ih h.2⟩

/-- A chain adds a node for each hop, over edges that are as the hops. -/
theorem chain_adds (hedges : g.tree.EdgesObey rule) (hlast : g.tree.chip? p = some a)
    (halong : Along rule a hops) (hdone : (g.chain p hops).error? = none) :
    (g.chain p hops).growth.tree.EdgesObey rule ∧
      (g.chain p hops).growth.tree.size = g.tree.size + hops.length := by
  induction hops generalizing g a p with
  | nil => exact ⟨hedges, rfl⟩
  | cons hop rest ih =>
      obtain ⟨hrule, halong⟩ := halong
      have hnew := new_of_chain hdone
      rw [chain_cons (RouteTree.lt_size_of_chip? hlast) hnew] at hdone ⊢
      obtain ⟨hedges', hsize⟩ :=
        ih (hedges.addChild hlast hrule) (by simp) halong hdone
      refine ⟨hedges', hsize.trans ?_⟩
      rw [RouteTree.size_addChild, List.length_cons]
      omega

/-- What a chain of hops adds, a branch adds from its anchor on. The anchor has a node, from which
the chain is hung; its first hop leaves from the chip of that node. -/
theorem append_adds {branch : Anchor.Branch} (h : Sound excused hung g)
    (hedges : g.tree.EdgesObey rule) (halong : Along rule branch.anchor branch.hops)
    (hdone : (g.append branch).error? = none) :
    (g.append branch).growth.tree.EdgesObey rule ∧
      (g.append branch).growth.tree.size = g.tree.size + branch.hops.length := by
  unfold Growth.append at hdone ⊢
  cases hn : g.index.get? branch.anchor with
  | none =>
      rw [hn] at hdone
      contradiction
  | some n =>
      rw [hn] at hdone
      exact chain_adds hedges (h.indexed.1 hn) halong hdone

/-! ### The invariant -/

/-- A tree laid from a source to some sinks. -/
structure Laid (grid : Grid) (rule : Chip → Direction → Chip → Prop) (source : Chip)
    (sinks : List Chip) (g : Growth) : Prop where
  sound : Sound (· ∈ sinks) [] g
  start : g.index.get? source = some 0
  inside : ∀ c, g.index.contains c = true → grid.contains c = true
  present : ∀ c ∈ sinks, g.index.contains c = true
  edges : g.tree.EdgesObey rule
  size_le : g.tree.size ≤ 1 + (sinks.map (grid.distance source)).sum

/-- The rule holds along the path to a new chip, whatever tree has been laid from the source. -/
def PathsObey (grid : Grid) (rule : Chip → Direction → Chip → Prop) (source : Chip)
    (radius : Nat) : Prop :=
  ∀ {sinks g}, Laid grid rule source sinks g → ∀ {c}, grid.contains c = true →
    g.index.contains c = false → ∀ hops,
      grid.straightRuns (g.startOf grid c radius) c = .ok hops →
        Along rule (g.startOf grid c radius) hops

/-- A branch that can be hung off a tree, leads to a chip, and is no longer than a path of its own
from the source would be. -/
structure Fits (grid : Grid) (rule : Chip → Direction → Chip → Prop) (source : Chip) (g : Growth)
    (branch : Anchor.Branch) (c : Chip) : Prop where
  anchor : g.index.contains branch.anchor = true
  ends : endOf branch.anchor branch.hops = c
  inside : ∀ hop ∈ branch.hops, grid.contains hop.chip = true
  fresh : ∀ hop ∈ branch.hops, g.index.contains hop.chip = false
  nodup : (branch.hops.map (·.chip)).Nodup
  along : Along rule branch.anchor branch.hops
  length_le : branch.hops.length ≤ grid.distance source c

/-- The root alone is laid to no sinks, whatever the rule. Both sides of the bound on the size are
one there. -/
theorem laid_single (rule : Chip → Direction → Chip → Prop)
    (hsource : grid.contains source = true) : Laid grid rule source [] (.single source) where
  sound := sound_single source _
  start := (sound_single source (· ∈ [])).indexed.2 rfl
  inside c hc := by
    rw [contains_single.1 hc]
    exact hsource
  present := by simp
  edges := RouteTree.edgesObey_single rule source
  size_le := Nat.le_refl 1

namespace Laid

/-- The order of the sinks is not part of the invariant. -/
theorem perm {sinks' : List Chip} (h : Laid grid rule source sinks g) (hperm : sinks.Perm sinks') :
    Laid grid rule source sinks' g :=
  { h with
    sound := h.sound.mono fun _ => hperm.mem_iff.1
    present := fun c hc => h.present c (hperm.mem_iff.2 hc)
    size_le := by
      rw [← (hperm.map (grid.distance source)).sum_eq]
      exact h.size_le }

/-- The root of a laid tree is on the source. -/
theorem rootChip (h : Laid grid rule source sinks g) : g.rootChip = source :=
  h.sound.rootChip h.start

/-- The source is a chip of the tree, so that a path can always start there. -/
theorem contains_source (h : Laid grid rule source sinks g) : g.index.contains source = true :=
  contains_iff_exists.2 ⟨0, h.start⟩

/-- The path to a new chip starts from a chip of the tree no farther than the source. -/
theorem startOf_spec (h : Laid grid rule source sinks g) (hc : grid.contains c = true)
    (radius : Nat) :
    g.index.contains (g.startOf grid c radius) = true ∧
      grid.distance (g.startOf grid c radius) c ≤ grid.distance source c := by
  have hstart := Growth.startOf_spec h.inside (h.rootChip ▸ h.contains_source) hc radius
  rwa [h.rootChip] at hstart

/-- A new chip is attached by a branch that fits. -/
theorem exists_fits (hobey : PathsObey grid rule source radius)
    (h : Laid grid rule source sinks g) (hc : grid.contains c = true)
    (hnew : g.index.contains c = false) :
    ∃ branch, g.attach grid c radius = g.append branch ∧ Fits grid rule source g branch c := by
  obtain ⟨hstart, hnear⟩ := h.startOf_spec hc radius
  obtain ⟨hops, hok, hwalk, -, hlength, hnodup, hin⟩ :=
    Grid.straightRuns_walk (h.inside _ hstart) hc
  have halong := hobey h hc hnew hops hok
  refine ⟨_, attach_eq hnew hok, ?_⟩
  -- Of the start it matters only that it is in the tree and no farther than the source.
  generalize g.startOf grid c radius = start at *
  obtain ⟨hanchor, hsuffix, hfresh, hend⟩ := Anchor.truncate_spec g.index.contains hops hstart
  obtain ⟨skipped, hsplit, hskipped⟩ := Anchor.truncate_split g.index.contains start hops
  generalize Anchor.truncate g.index.contains start hops = branch at *
  exact {
    anchor := hanchor
    ends := hend.trans hwalk.endOf_eq
    inside := fun hop hhop => hin hop (hsuffix.subset hhop)
    fresh := hfresh
    nodup := (List.nodup_cons.1 hnodup).2.sublist (hsuffix.sublist.map _)
    along := by
      rw [hsplit] at halong
      rw [← hskipped]
      exact halong.of_append
    length_le := by
      have hcut := hsuffix.length_le
      omega }

/-- A chip more that is in the tree already. -/
theorem snoc (h : Laid grid rule source sinks g) (hc : g.index.contains c = true) :
    Laid grid rule source (sinks ++ [c]) g :=
  { h with
    sound := h.sound.mono fun _ hx => List.mem_append_left _ hx
    present := fun x hx => by
      rcases List.mem_append.1 hx with hx | hx
      · exact h.present x hx
      · rwa [List.mem_singleton.1 hx]
    size_le := by
      have hsize := h.size_le
      rw [List.map_append, List.sum_append]
      omega }

/-- A branch that fits can be hung up. -/
theorem append {branch : Anchor.Branch} (h : Laid grid rule source sinks g)
    (hfits : Fits grid rule source g branch c) :
    ∃ g', g.append branch = g'.done ∧ Laid grid rule source (sinks ++ [c]) g' := by
  have hdone := append_done h.sound hfits.anchor hfits.fresh hfits.nodup
  obtain ⟨hsound, hgains, -⟩ := h.sound.append hdone
  obtain ⟨hedges, hadds⟩ := append_adds h.sound h.edges hfits.along hdone
  rw [hfits.ends] at hsound
  refine ⟨_, Attempt.eq_done hdone, hsound.mono fun x hx => ?_, hgains.kept h.start, ?_, ?_, hedges,
    ?_⟩
  · rwa [List.mem_append, List.mem_singleton]
  · intro x hx
    rcases hgains.contains.1 hx with hx | hx
    · exact h.inside x hx
    · obtain ⟨hop, hhop, rfl⟩ := List.mem_map.1 hx
      exact hfits.inside hop hhop
  · intro x hx
    rw [hgains.contains]
    rcases List.mem_append.1 hx with hx | hx
    · exact .inl (h.present x hx)
    · -- The branch ends on the chip, if that is not already where it starts.
      rw [List.mem_singleton.1 hx, ← hfits.ends]
      exact (endOf_mem branch.anchor branch.hops).imp_left fun heq => by
        rw [heq]
        exact hfits.anchor
  · have hsize := h.size_le
    have hlength := hfits.length_le
    rw [hadds, List.map_append, List.sum_append, List.map_singleton, List.sum_singleton]
    omega

/-- A chip of the grid can be attached. -/
theorem attach (hobey : PathsObey grid rule source radius) (h : Laid grid rule source sinks g)
    (hc : grid.contains c = true) :
    ∃ g', g.attach grid c radius = g'.done ∧ Laid grid rule source (sinks ++ [c]) g' := by
  cases hin : g.index.contains c with
  | true => exact ⟨g, by rw [Growth.attach, if_pos hin], h.snoc hin⟩
  | false =>
      obtain ⟨branch, heq, hfits⟩ := h.exists_fits hobey hc hin
      rw [heq]
      exact h.append hfits

/-- Chips of the grid can be attached, all of them. -/
theorem attachAll (hobey : PathsObey grid rule source radius)
    (h : Laid grid rule source sinks g) (hchips : ∀ c ∈ chips, grid.contains c = true) :
    ∃ g', g.attachAll grid radius chips = .ok g' ∧ Laid grid rule source (sinks ++ chips) g' := by
  induction chips generalizing sinks g with
  | nil => exact ⟨g, rfl, by rwa [List.append_nil]⟩
  | cons c rest ih =>
      have hc := hchips c (List.mem_cons_self ..)
      obtain ⟨next, hnext, hlaid⟩ := h.attach hobey hc
      obtain ⟨g', hok, hlaid'⟩ := ih hlaid fun x hx => hchips x (List.mem_cons_of_mem _ hx)
      refine ⟨g', ?_, by rwa [List.append_assoc] at hlaid'⟩
      rw [Growth.attachAll, hnext, Attempt.result_eq_ok.2 ⟨rfl, rfl⟩]
      exact hok

end Laid

/-- The paths follow the links of the grid. -/
theorem pathsObey_step (grid : Grid) (source : Chip) (radius : Nat) :
    PathsObey grid (fun a d c => grid.step a d = some c) source radius := by
  intro sinks g h c hc _ hops hok
  obtain ⟨hstart, -⟩ := h.startOf_spec hc radius
  obtain ⟨hops', hok', hwalk, -⟩ := Grid.straightRuns_walk (h.inside _ hstart) hc
  obtain rfl := Except.ok.inj (hok'.symm.trans hok)
  exact along_of_isWalk hwalk

end Multicast.Growth
