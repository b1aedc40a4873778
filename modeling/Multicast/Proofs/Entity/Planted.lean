import Multicast.Proofs.Entity.Corridor
import Multicast.Proofs.Entity.Graft
import Multicast.Proofs.Entity.LocalTree

/-!
# `Multicast.Proofs.Entity.Planted`: every piece of a tree can be added

Local trees, corridors and the branches to single sinks are found without a look at each
other, and may meet the tree and each other anywhere. Still each of them can be added.
`Growth.Planted` is the invariant of the tree: besides being `Growth.Rooted` it has all its
chips on the grid. A piece is a path that visits no chip twice (`Grid.IsTrack`), from a chip
of the tree on; what is added is the part behind its last chip in the tree, so no chip comes
twice (`Planted.appendPath`). The branch to a sink is such a path (`Planted.attach`), the way
to the exit of a corridor inside an entity is one (`LocalTree.onGrid_span`), and so is a
corridor. The edges of a local tree are added one by one where they fit
(`Planted.graft`).

So a tree is put together unless a corridor is missing: `Settles` says what a step answers
and what kind of error may end it, and `Planted.graftLegs` that the legs to all targets end
with the error of the first corridor that is missing, or with a tree that is planted.
-/

set_option autoImplicit false

namespace Multicast

/-- A step answers something good or ends with an error of some kind. -/
def Settles {α : Type} (kind : RouteError → Prop) (good : α → Prop) :
    Except RouteError α → Prop
  | .ok a => good a
  | .error e => kind e

namespace Settles

variable {α β : Type} {kind : RouteError → Prop} {good : α → Prop} {good' : β → Prop}

/-- A step that is known to settle in one way settles in every weaker one. -/
theorem imp {kind' : RouteError → Prop} {good' : α → Prop} {x : Except RouteError α}
    (h : Settles kind good x) (hkind : ∀ e, kind e → kind' e) (hgood : ∀ a, good a → good' a) :
    Settles kind' good' x := by
  cases x with
  | ok a => exact hgood a h
  | error e => exact hkind e h

/-- Steps that settle one after another settle together, with an error of either. -/
theorem bind {x : Except RouteError α} {next : α → Except RouteError β}
    (hx : Settles kind good x) (hnext : ∀ a, x = .ok a → good a → Settles kind good' (next a)) :
    Settles kind good' (x >>= next) := by
  cases x with
  | error e => exact hx
  | ok a => exact hnext a rfl hx

end Settles

/-- Hops over chips of a grid, no two of them onto the same chip. -/
structure Grid.IsTrack (grid : Grid) (hops : List Hop) : Prop where
  inside : ∀ hop ∈ hops, grid.contains hop.chip = true
  nodup : (hops.map (·.chip)).Nodup

/-- A walk that visits no chip twice is a track. -/
theorem Fabric.IsWalk.isTrack {f : Fabric} {a b : Chip} {hops : List Hop}
    (h : f.IsWalk a hops b) (hnodup : (a :: hops.map (·.chip)).Nodup) :
    f.toGrid.IsTrack hops :=
  ⟨h.contains, (List.nodup_cons.1 hnodup).2⟩

/-! ### Local trees on the grid -/

namespace LocalTree

variable {f : Fabric} {root : Chip} {chips : Std.ExtTreeSet Chip}

/-- A local tree all of whose edges lead to chips of the grid and all of whose paths are tracks. -/
structure OnGrid (f : Fabric) (t : LocalTree) : Prop where
  edges : ∀ edge ∈ t.edges, f.contains edge.target = true
  path : ∀ {c hops}, t.pathTo? c = some hops → f.toGrid.IsTrack hops ∧ Grid.endOf t.root hops = c

/-- A local tree has its edges over working links, which lead to chips of the grid, and its paths
are routes that arrive at no chip twice. -/
theorem onGrid_span (f : Fabric) (root : Chip) (chips : Std.ExtTreeSet Chip) :
    (span f root chips).OnGrid f where
  edges edge hedge := by
    obtain ⟨-, hlink⟩ :=
      (wellFound_span f root chips).follows (List.mem_reverse.2 (mem_edges.1 hedge))
    exact Fabric.contains_of_isChip (Fabric.isChip_of_follow? (mem_linksWithin.1 hlink).1).2
  path {c hops} hpath := by
    obtain ⟨hc, rfl⟩ := pathTo?_eq_some.1 hpath
    obtain ⟨hroute, -, hnodup, -⟩ :=
      Search.route_breadthFirst (fun _ => mem_of_reaches) (length_le root chips) hc
    have hwalk := (isWalkWithin_of_isRoute hroute).1
    refine ⟨hwalk.isTrack ?_, Corridor.endOf_of_isWalk hwalk⟩
    rw [List.map_map]
    exact hnodup

end LocalTree

/-- The local tree of an entity is rooted where it is asked for and on the grid. -/
theorem EntityGraph.localTree?_spec {g : EntityGraph} {f : Fabric} {e : EntityId} {root : Chip}
    {t : LocalTree} (h : g.localTree? f e root = some t) : t.root = root ∧ t.OnGrid f := by
  unfold localTree? at h
  split at h
  · contradiction
  · dsimp only at h
    split at h
    · obtain rfl := Option.some.inj h
      exact ⟨rfl, LocalTree.onGrid_span f root _⟩
    · contradiction

/-- The parts of a leg that are there can be used: a corridor that is a track from a chip of the
grid, and a local tree on the grid. -/
structure Leg.Usable (kind : RouteError → Prop) (f : Fabric) (leg : Leg) : Prop where
  corridor : Settles kind (fun c => f.contains c.exit = true ∧ f.toGrid.IsTrack c.hops)
    leg.corridor.get
  farEnd : ∀ t, leg.farEnd.get = some t → t.OnGrid f

/-! ### Trees on the grid -/

namespace Growth

open Grid (endOf)

/-- A tree with its index and without endpoints, rooted on a given chip and all of it on a grid. -/
structure Planted (grid : Grid) (c : Chip) (g : Growth) : Prop extends Rooted c g where
  inside : ∀ b, g.index.contains b = true → grid.contains b = true

variable {f : Fabric} {grid : Grid} {g g' : Growth} {b c start exit : Chip} {hops : List Hop}
  {chips : List Chip} {radius : Nat} {kind : RouteError → Prop} {source : EntityId}
  {nearEnd : Thunk (Option LocalTree)}

/-- A tree of one chip on the grid is all on the grid. -/
theorem planted_single (hc : grid.contains c = true) : Planted grid c (single c) where
  toRooted := rooted_single c
  inside b hb := by
    rw [contains_single.1 hb]
    exact hc

/-- Grafting an edge brings in the chip at its end, or nothing. -/
theorem contains_graftEdge {edge : Search.Step Chip Direction}
    (h : (g.graftEdge edge).index.contains b = true) :
    g.index.contains b = true ∨ b = edge.target := by
  unfold graftEdge at h
  split at h
  · exact .inl h
  · split at h
    · exact .inl h
    · rw [ChipIndex.contains_eq_isSome, ChipIndex.get?_set] at h
      split at h
      · next heq => exact .inr heq
      · rw [ChipIndex.contains_eq_isSome]
        exact .inl h

/-- The error of a leg with a corridor that is needed and not there. -/
def missingLeg? (source : EntityId) (leg : Leg) : Option RouteError :=
  if leg.target = source then none
  else
    match leg.corridor.get with
    | .ok _ => none
    | .error e => some e

namespace Planted

/-- A tree that gains chips of the grid stays on the grid. -/
theorem gain (h : Planted grid c g) {excused : Chip → Prop} (hsound : Sound excused [] g')
    (hgains : Gains g g' chips) (hchips : ∀ b ∈ chips, grid.contains b = true) :
    Planted grid c g' where
  toRooted := h.toRooted.gain hsound hgains
  inside b hb := (hgains.contains.1 hb).elim (h.inside b) (hchips b)

/-- The chip that the tree is rooted on is in it, so there is always a chip to start a branch from. -/
theorem contains_root (h : Planted grid c g) : g.index.contains c = true :=
  contains_iff_exists.2 ⟨0, h.root⟩

/-- A track from a chip of the tree can be added, and then the tree has where it ends. -/
theorem appendPath (h : Planted grid c g) (hstart : g.index.contains start = true)
    (htrack : grid.IsTrack hops) : ∃ g', g.appendPath start hops = .ok g' ∧ Planted grid c g' ∧
      (∀ b, g.index.contains b = true → g'.index.contains b = true) ∧
      g'.index.contains (endOf start hops) = true := by
  obtain ⟨hanchor, hsuffix, hfresh, hend⟩ := Anchor.truncate_spec g.index.contains hops hstart
  unfold Growth.appendPath
  generalize Anchor.truncate g.index.contains start hops = branch at *
  have hdone := append_done h.sound hanchor hfresh (htrack.nodup.sublist (hsuffix.sublist.map _))
  obtain ⟨hsound, hgains, -⟩ := h.sound.append hdone
  refine ⟨_, Attempt.result_eq_ok.2 ⟨hdone, rfl⟩, h.gain hsound hgains fun b hb => ?_,
    fun b hb => hgains.contains.2 (.inl hb), ?_⟩
  · obtain ⟨hop, hhop, rfl⟩ := List.mem_map.1 hb
    exact htrack.inside hop (hsuffix.subset hhop)
  · rw [← hend, hgains.contains]
    refine (endOf_mem branch.anchor branch.hops).imp_left fun heq => ?_
    rw [heq]
    exact hanchor

/-- A chip of the grid can be attached. -/
theorem attach (h : Planted grid c g) (hb : grid.contains b = true) (radius : Nat) :
    ∃ g', (g.attach grid b radius).result = .ok g' ∧ Planted grid c g' ∧
      (∀ a, g.index.contains a = true → g'.index.contains a = true) ∧
      g'.index.contains b = true := by
  cases hold : g.index.contains b with
  | true => exact ⟨g, by rw [Growth.attach, if_pos hold]; rfl, h, fun _ => id, hold⟩
  | false =>
      -- The branch is the track from its start, which is a chip of the tree.
      have hroot : g.index.contains g.rootChip = true :=
        (h.sound.rootChip h.root).symm ▸ h.contains_root
      obtain ⟨hstart, -⟩ := startOf_spec h.inside hroot hb radius
      obtain ⟨hops, hok, hwalk, -, -, hnodup, hin⟩ :=
        Grid.straightRuns_walk (h.inside _ hstart) hb
      obtain ⟨g', hg', hplanted, hkept, hend⟩ :=
        h.appendPath hstart ⟨hin, (List.nodup_cons.1 hnodup).2⟩
      rw [hwalk.endOf_eq] at hend
      exact ⟨g', (congrArg Attempt.result (attach_eq hold hok)).trans hg', hplanted, hkept, hend⟩

/-- Edges that lead to chips of the grid keep the tree on the grid. -/
theorem graftEdge (h : Planted grid c g) {edge : Search.Step Chip Direction}
    (hedge : grid.contains edge.target = true) : Planted grid c (g.graftEdge edge) where
  toRooted := h.toRooted.graftEdge edge
  inside b hb := (contains_graftEdge hb).elim (h.inside b) fun heq => heq ▸ hedge

/-- So do any number of them, grafted one after another. -/
theorem graftEdges (h : Planted grid c g) {edges : List (Search.Step Chip Direction)}
    (hedges : ∀ edge ∈ edges, grid.contains edge.target = true) :
    Planted grid c (edges.foldl Growth.graftEdge g) := by
  induction edges generalizing g with
  | nil => exact h
  | cons edge rest ih =>
      obtain ⟨hedge, hrest⟩ := List.forall_mem_cons.1 hedges
      exact ih (h.graftEdge hedge) hrest

/-- Of a local tree on the grid the edges are added that fit. -/
theorem graft (h : Planted f.toGrid c g) {piece : Option LocalTree}
    (hpiece : ∀ t, piece = some t → t.OnGrid f) : Planted f.toGrid c (g.graft piece) := by
  cases piece with
  | none => exact h
  | some tree =>
      rw [Growth.graft]
      split
      · exact h.graftEdges (hpiece tree rfl).edges
      · exact h

/-- The exit of a corridor can be reached, along the local tree or like a sink. -/
theorem reachExit (h : Planted f.toGrid c g) {piece : Option LocalTree}
    (hpiece : ∀ t, piece = some t → t.root = c ∧ t.OnGrid f) (hexit : f.contains exit = true) :
    ∃ g', g.reachExit f radius c exit piece = .ok g' ∧ Planted f.toGrid c g' ∧
      g'.index.contains exit = true := by
  unfold Growth.reachExit
  split
  · next hops hpath =>
    obtain ⟨t, ht, hpath⟩ := Option.bind_eq_some_iff.1 hpath
    obtain ⟨hroot, hgrid⟩ := hpiece t ht
    obtain ⟨htrack, hend⟩ := hgrid.path hpath
    obtain ⟨g', hok, hplanted, -, hhas⟩ := h.appendPath h.contains_root htrack
    rw [← hroot, hend] at hhas
    exact ⟨g', hok, hplanted, hhas⟩
  · obtain ⟨g', hok, hplanted, -, hhas⟩ := h.attach hexit radius
    exact ⟨g', hok, hplanted, hhas⟩

/-- The pieces that lead to one target are added just if they need no corridor that is missing. -/
theorem graftLeg (h : Planted f.toGrid c g)
    (hnear : ∀ t, nearEnd.get = some t → t.root = c ∧ t.OnGrid f) {leg : Leg}
    (hleg : leg.Usable kind f) (radius : Nat) (source : EntityId) :
    match missingLeg? source leg with
    | some e => g.graftLeg f radius source c nearEnd leg = .error e
    | none => ∃ next, g.graftLeg f radius source c nearEnd leg = .ok next ∧
        Planted f.toGrid c next := by
  have hcorridor := hleg.corridor
  unfold missingLeg? Growth.graftLeg
  by_cases hsame : leg.target = source
  · rw [if_pos hsame, if_pos hsame]
    exact ⟨_, rfl, h.graft fun t ht => (hnear t ht).2⟩
  · rw [if_neg hsame, if_neg hsame]
    cases hget : leg.corridor.get with
    | error e => rfl
    | ok corridor =>
        rw [hget] at hcorridor
        obtain ⟨hexit, htrack⟩ := hcorridor
        -- With its exit in the tree the corridor can be added, and then what lies at its far end.
        have hjoin {atExit : Growth} (hat : Planted f.toGrid c atExit)
            (hhas : atExit.index.contains corridor.exit = true) :
            ∃ next, (do
              let joined ← atExit.appendPath corridor.exit corridor.hops
              return joined.graft leg.farEnd.get) = Except.ok next ∧
              Planted f.toGrid c next := by
          obtain ⟨joined, hjoined, hplanted, -⟩ := hat.appendPath hhas htrack
          rw [hjoined]
          exact ⟨_, rfl, hplanted.graft hleg.farEnd⟩
        dsimp only [bind, Except.bind]
        split
        · next hhas => exact hjoin h hhas
        · obtain ⟨atExit, hat, hplanted, hhas⟩ := h.reachExit hnear hexit
          rw [hat]
          exact hjoin hplanted hhas

/-- The first missing corridor ends the adding of pieces, and nothing else does. -/
theorem graftLegs (h : Planted f.toGrid c g)
    (hnear : ∀ t, nearEnd.get = some t → t.root = c ∧ t.OnGrid f) {legs : List Leg}
    (hlegs : ∀ leg ∈ legs, leg.Usable kind f) (radius : Nat) (source : EntityId) :
    match legs.findSome? (missingLeg? source) with
    | some e => g.graftLegs f radius source c nearEnd legs = .error e
    | none => ∃ g', g.graftLegs f radius source c nearEnd legs = .ok g' ∧
        Planted f.toGrid c g' := by
  induction legs generalizing g with
  | nil => exact ⟨g, rfl, h⟩
  | cons leg rest ih =>
      obtain ⟨hleg, hrest⟩ := List.forall_mem_cons.1 hlegs
      have hends := h.graftLeg hnear hleg radius source
      rw [List.findSome?_cons, Growth.graftLegs]
      cases hmissing : missingLeg? source leg with
      | some e =>
          rw [hmissing] at hends
          rw [hends]
          rfl
      | none =>
          rw [hmissing] at hends
          obtain ⟨next, hnext, hplanted⟩ := hends
          rw [hnext]
          exact ih hplanted hrest

end Planted

end Growth

end Multicast
