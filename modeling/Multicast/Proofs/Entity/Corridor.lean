import Mathlib.Data.List.Chain
import Multicast.Proofs.Entity.Delivery
import Multicast.Proofs.Entity.Loops
import Multicast.Proofs.Geometry.Words
import Multicast.Proofs.Growth.StraightRuns

/-!
# `Multicast.Proofs.Entity.Corridor`: the way from one entity to another

The straight path between the first chips of two entities is followed over working links,
with a bridge wherever a link does not work. Each bridge leads to the next working chip on
the path, whether the path needs that chip or not. So the path can be followed when each
working chip on it is joined to the next, and not merely when its ends are joined
(`corridor_ok_iff`, `island_decides`). That there is such a path is said of grids with sides
below `2 ^ 31`, where words of 32 bits hold its vector.

What is followed may come back to a chip. Its loops are cut out (`Proofs.Entity.Loops`),
then all that lies before the last chip of the source, then all that lies behind the first
chip of the target after that. `Corridor.Joins` says what is left: a walk over working
links that meets neither entity but at its ends. Every corridor found is one
(`corridor_joins`), also when the entities share chips.
-/

set_option autoImplicit false

namespace Multicast

namespace Corridor

variable {f : Fabric} {a b c source target start : Chip} {d : Direction} {hops path : List Hop}

/-! ### Bridges -/

/-- The neighbours a bridge is searched over. -/
def neighbours (f : Fabric) (c : Chip) : List (Direction × Chip) :=
  (f.liveLinks c).map fun hop => (hop.link, hop.chip)

/-- The neighbours that a bridge is searched over are those that a working link leads to. -/
theorem mem_neighbours : (d, b) ∈ neighbours f a ↔ f.follow? a d = some b := by
  simp only [neighbours, List.mem_map, Prod.mk.injEq]
  constructor
  · rintro ⟨hop, h, rfl, rfl⟩
    exact Fabric.mem_liveLinks.1 h
  · exact fun h => ⟨⟨d, b⟩, Fabric.mem_liveLinks.2 h, rfl, rfl⟩

/-- So what the search for a bridge can reach is what working links join. -/
theorem reaches_neighbours : Search.Reaches (neighbours f) a b ↔ f.Joined a b := by
  have hstep : Search.Adjacent (neighbours f) = f.Linked :=
    funext fun a => funext fun b => propext (exists_congr fun d => mem_neighbours)
  rw [Search.Reaches, hstep, Fabric.Joined]

/-- A route over the neighbours is a walk over working links. -/
theorem isWalk_of_isRoute {steps : List (Search.Step Chip Direction)}
    (h : Search.IsRoute (neighbours f) a steps b) :
    f.IsWalk a (steps.map fun step => ⟨step.edge, step.target⟩) b := by
  induction steps generalizing a with
  | nil => exact h
  | cons step rest ih =>
      obtain ⟨rfl, hstep, hrest⟩ := h
      exact ⟨mem_neighbours.1 hstep, ih hrest⟩

/-- A bridge is a walk, and there is one when the chips are joined. The search goes over the grid,
of which the bound allows every chip. It takes a nearest goal, and which of several does not matter
here. -/
theorem bridge_spec (hsource : f.contains source = true) :
    (∃ hops, bridge f source target = .ok hops ∧ f.IsWalk source hops target) ∨
      bridge f source target = .error (.noLivePath source target) ∧ ¬ f.Joined source target := by
  have huniv : ∀ b, Search.Reaches (neighbours f) source b → b ∈ f.cells := fun b hb =>
    Grid.mem_cells.2 ((reaches_neighbours.1 hb).contains hsource)
  have hbound : f.cells.length ≤ f.size + 1 := by
    rw [Grid.length_cells]
    exact Nat.le_succ _
  -- Among equal keys the first found is taken, so a nearest goal is a best one by a constant key.
  generalize hfound : Search.bestFirst (fun _ => 0) (neighbours f) (fun c => c == target)
    (f.size + 1) source = found
  have hnearest : Search.nearest (fun c => (f.liveLinks c).map fun hop => (hop.link, hop.chip))
    (fun c => c == target) (f.size + 1) source = found := hfound
  simp only [bridge, hnearest]
  cases found with
  | some found =>
      obtain ⟨goal, steps⟩ := found
      obtain ⟨hgoal, hroute, -⟩ := Search.bestFirst_eq_some huniv hbound hfound
      obtain rfl := eq_of_beq hgoal
      exact .inl ⟨_, rfl, isWalk_of_isRoute hroute⟩
  | none =>
      refine .inr ⟨rfl, fun hjoined => ?_⟩
      have := Search.bestFirst_eq_none huniv hbound hfound (reaches_neighbours.2 hjoined)
      simp at this

/-! ### Following the straight path -/

/-- The working chips that hops land on. -/
def relays (f : Fabric) (hops : List Hop) : List Chip :=
  (hops.map (·.chip)).filter f.isChip

/-- A hop onto a dead chip adds nothing to the chips that have to be joined, since the walk passes
over it. -/
theorem relays_cons (hop : Hop) (rest : List Hop) : relays f (hop :: rest) =
    if f.isChip hop.chip then hop.chip :: relays f rest else relays f rest := by
  rw [relays, List.map_cons, List.filter_cons]
  rfl

/-- What following hops comes to: a walk over working links if each of the working chips on the way
is joined to the next, else two of these chips that are not joined, or a target that is dead. -/
def Follows (f : Fabric) (target c : Chip) (hops : List Hop)
    (result : Except RouteError (List Hop)) : Prop :=
  (∃ path, result = .ok path ∧ f.IsWalk c path target ∧ (c :: relays f hops).IsChain f.Joined) ∨
    ∃ a b, result = .error (.noLivePath a b) ∧ ¬ f.Joined a b ∧
      ([a, b] <:+: c :: relays f hops ∨ f.isChip target = false)

/-- Hops that lead from the first of the hops to follow to a working chip, and then what following
the others comes to. -/
theorem Follows.cons {hop : Hop} {rest first : List Hop} {result : Except RouteError (List Hop)}
    (hlive : f.isChip hop.chip = true) (hfirst : f.IsWalk c first hop.chip)
    (h : Follows f target hop.chip rest result) :
    Follows f target c (hop :: rest) (result.map (first ++ ·)) := by
  have hrelays : relays f (hop :: rest) = hop.chip :: relays f rest := by
    rw [relays_cons, if_pos hlive]
  rw [Follows, hrelays]
  rcases h with ⟨path, rfl, hwalk, hchain⟩ | ⟨a, b, rfl, hno, hpair⟩
  · exact .inl ⟨first ++ path, rfl, hfirst.append hwalk,
      List.isChain_cons_cons.2 ⟨hfirst.joined, hchain⟩⟩
  · exact .inr ⟨a, b, rfl, hno, hpair.imp_left fun h => h.trans (List.suffix_cons ..).isInfix⟩

/-- Following a path of the grid from a working chip, or from a dead one on it that has been passed
over. By induction on the hops. While no link has failed the walk is on the path itself; after that
it stays on the last working chip until the path comes to the next, and goes there over a bridge. -/
theorem walk_spec {broken : Bool} {here : Chip} (hc : f.isChip c = true)
    (hhops : f.toGrid.IsWalk here hops target)
    (hhere : if broken then f.isChip here = false else here = c) :
    Follows f target c hops (walk f target broken c hops) := by
  induction hops generalizing broken here c with
  | nil =>
      obtain rfl : here = target := hhops
      cases broken with
      | true =>
          -- The path ends on the dead chip.
          refine .inr ⟨c, here, rfl, fun hjoined => ?_, .inr hhere⟩
          have := hjoined.isChip hc
          simp_all
      | false =>
          obtain rfl : here = c := hhere
          exact .inl ⟨[], rfl, rfl, by simp [relays]⟩
  | cons hop rest ih =>
      obtain ⟨hstep, hrest⟩ := hhops
      rw [walk]
      split
      · next hworks =>
        obtain ⟨rfl, hlink⟩ : broken = false ∧ f.isLink c hop.link = true := by simpa using hworks
        obtain rfl : here = c := hhere
        -- The link works, and it leads where the hop says.
        obtain ⟨next, hnext⟩ := Option.isSome_iff_exists.1 hlink
        obtain ⟨-, -, hstep', -, hlive⟩ := Fabric.follow?_eq_some_iff.1 hnext
        obtain rfl := Option.some.inj (hstep.symm.trans hstep')
        have hfirst : f.IsWalk here [hop] hop.chip := ⟨hnext, rfl⟩
        exact .cons hlive hfirst (ih hlive hrest rfl)
      · split
        · next hlive =>
          rcases bridge_spec (Fabric.contains_of_isChip hc) with
            ⟨around, haround, hwalk⟩ | ⟨hnone, hno⟩
          · rw [haround]
            exact .cons hlive hwalk (ih hlive hrest rfl)
          · rw [hnone]
            refine .inr ⟨c, hop.chip, rfl, hno, .inl ?_⟩
            rw [relays_cons, if_pos hlive]
            exact (List.prefix_append [c, hop.chip] _).isInfix
        · next hdead =>
          have hrelays : relays f (hop :: rest) = relays f rest := by
            rw [relays_cons, if_neg hdead]
          rw [Follows, hrelays]
          exact ih hc hrest (by simpa using hdead)

/-! ### The part between two entities -/

/-- Hops are taken up to the first that lands inside. By induction on the hops, the last of which is
the one that lands inside if there is one. -/
theorem takeThrough_spec (inside : Chip → Bool) (a : Chip) (hops : List Hop) :
    takeThrough inside hops <+: hops ∧
      (∀ hop ∈ (takeThrough inside hops).dropLast, inside hop.chip = false) ∧
      (inside (Grid.endOf a hops) = true →
        inside (Grid.endOf a (takeThrough inside hops)) = true) := by
  induction hops generalizing a with
  | nil => exact ⟨List.prefix_rfl, by simp [takeThrough], id⟩
  | cons hop rest ih =>
      rw [takeThrough]
      split
      · next hin => exact ⟨⟨rest, rfl⟩, by simp, fun _ => hin⟩
      · next hout =>
        obtain ⟨hearly, hbefore, hend⟩ := ih hop.chip
        refine ⟨List.cons_prefix_cons.2 ⟨rfl, hearly⟩, fun x hx => ?_, ?_⟩
        · -- The hop taken first is the last one taken, or not the last.
          cases htaken : takeThrough inside rest with
          | nil => simp [htaken] at hx
          | cons next more =>
              rw [htaken] at hx hbefore
              rcases List.mem_cons.1 hx with rfl | hmem
              · simpa using hout
              · exact hbefore x hmem
        · rw [Grid.endOf_cons, Grid.endOf_cons]
          exact hend

/-- The chips from where some hops of a path lead on are the last ones of the path. -/
theorem chips_suffix (a : Chip) (skipped rest : List Hop) :
    (Grid.endOf a skipped :: rest.map (·.chip)) <:+ a :: (skipped ++ rest).map (·.chip) := by
  induction skipped generalizing a with
  | nil => exact List.suffix_rfl
  | cons hop skipped ih =>
      rw [Grid.endOf_cons]
      exact (ih hop.chip).trans (List.suffix_cons ..)

/-- A corridor from one group of chips to another: a walk over working links that starts in the one
and ends in the other, visits no chip twice and meets neither group on the way. -/
structure Joins (f : Fabric) (sources targets : List Chip) (c : Corridor) : Prop where
  exit_mem : c.exit ∈ sources
  entry_mem : c.entry ∈ targets
  walk : f.IsWalk c.exit c.hops c.entry
  nodup : (c.exit :: c.hops.map (·.chip)).Nodup
  outside : ∀ hop ∈ c.hops.dropLast, hop.chip ∉ sources ∧ hop.chip ∉ targets

/-- A walk ends on the chip of its last hop, or where it starts when it has none. -/
theorem endOf_of_isWalk (h : f.IsWalk a hops b) : Grid.endOf a hops = b :=
  (leads_iff_isWalk.2 h).endOf_eq

/-- The first part of a walk is a walk, and so is the rest from where it leads. -/
theorem isWalk_split (h : f.IsWalk a (hops ++ path) b) :
    f.IsWalk a hops (Grid.endOf a hops) ∧ f.IsWalk (Grid.endOf a hops) path b := by
  simpa only [leads_iff_isWalk] using leads_append.1 (leads_iff_isWalk.2 h)

/-- What lies between two groups on a path without loops from one to the other is a corridor. The
walk is cut behind its last chip of the first group, then through its first chip of the second. What
is left is a part of a walk without repeats, so both are as they should be. -/
theorem between_joins {inSource inTarget : Chip → Bool} {sources targets : List Chip}
    (hsources : ∀ c, inSource c = true ↔ c ∈ sources)
    (htargets : ∀ c, inTarget c = true ↔ c ∈ targets) (hstart : start ∈ sources)
    (hend : b ∈ targets) (hwalk : f.IsWalk start hops b)
    (hnodup : (start :: hops.map (·.chip)).Nodup) :
    (between inSource inTarget start hops).Joins f sources targets := by
  obtain ⟨hin, -, hout, hsame⟩ := Anchor.truncate_spec inSource hops ((hsources _).2 hstart)
  obtain ⟨skipped, hsplit, hanchor⟩ := Anchor.truncate_split inSource start hops
  rw [between]
  generalize Anchor.truncate inSource start hops = rest at *
  obtain ⟨exit, onward⟩ := rest
  dsimp only at *
  subst hsplit hanchor
  obtain ⟨hearly, hbefore, htaken⟩ :=
    takeThrough_spec inTarget (Grid.endOf start skipped) onward
  have honward := (isWalk_split hwalk).2
  have hsuffix := chips_suffix start skipped onward
  have hsub := hearly.sublist
  refine ⟨(hsources _).1 hin, (htargets _).1 (htaken ?_), ?_, ?_, fun hop hhop => ⟨?_, ?_⟩⟩
  · rw [endOf_of_isWalk honward]
    exact (htargets b).2 hend
  · obtain ⟨left, hleft⟩ := hearly
    rw [← hleft] at honward
    exact (isWalk_split honward).1
  · exact (hnodup.sublist hsuffix.sublist).sublist ((hsub.map _).cons_cons _)
  · rw [← hsources, Bool.not_eq_true]
    exact hout hop (hsub.subset (List.dropLast_subset _ hhop))
  · rw [← htargets, Bool.not_eq_true]
    exact hbefore hop hhop

end Corridor

namespace EntityGraph

variable {f : Fabric} {g : EntityGraph} {e source target : EntityId} {chips : List Chip} {c : Chip}

/-- The chips that count as inside an entity are those of its endpoints. These are the chips of its
cores, or of all endpoints when there is no core. -/
theorem endpoint_of_insideChips (h : g.insideChips e = .ok chips) (hc : c ∈ chips) :
    ∃ endpoints, g.endpoints e = .ok endpoints ∧ ∃ x ∈ endpoints, x.chip = c := by
  obtain ⟨endpoints, hendpoints, h⟩ := bind_eq_ok.1 h
  have hcores : ∀ {c}, c ∈ chipsOfCores endpoints → ∃ x ∈ endpoints, x.chip = c := by
    intro c hc
    rw [chipsOfCores, mem_distinct] at hc
    obtain ⟨x, hx, rfl⟩ := List.mem_map.1 hc
    exact ⟨x, List.mem_of_mem_filter hx, rfl⟩
  refine ⟨endpoints, hendpoints, ?_⟩
  cases hchips : chipsOfCores endpoints with
  | nil =>
      rw [hchips] at h
      obtain rfl := Except.ok.inj h
      exact List.mem_map.1 hc
  | cons first rest =>
      rw [hchips] at h
      obtain rfl := Except.ok.inj h
      exact hcores (hchips ▸ hc)

/-- What counts as inside an entity with a core are the chips of its cores. -/
theorem insideChips_of_coreChips {first : Chip} (h : g.coreChips e = .ok (first :: chips)) :
    g.insideChips e = .ok (first :: chips) := by
  obtain ⟨endpoints, hendpoints, h⟩ := bind_eq_ok.1 h
  have hchips : chipsOfCores endpoints = first :: chips := Except.ok.inj h
  exact bind_eq_ok.2 ⟨endpoints, hendpoints, by rw [hchips]; rfl⟩

/-- From a working chip of the source the corridor is cut out of the path that follows the straight
one. -/
theorem corridor_eq {start goal : Chip} {more others : List Chip} {straight : List Hop}
    (hsource : g.coreChips source = .ok (start :: more))
    (htarget : g.insideChips target = .ok (goal :: others)) (hstart : f.isChip start = true)
    (hstraight : f.straightRuns start goal = .ok straight) :
    g.corridor f source target = (Corridor.walk f goal false start straight).map fun path =>
      Corridor.between (Std.ExtTreeSet.ofList (start :: more)).contains
        (Std.ExtTreeSet.ofList (goal :: others)).contains start
        (Corridor.removeLoops start path) := by
  simp only [corridor, hsource, htarget, Corridor.firstChip, hstart, if_true, hstraight, bind,
    Except.bind, pure, Except.pure]
  cases Corridor.walk f goal false start straight <;> rfl

/-- A corridor found has a source with a core on a working chip and a target with an endpoint. All
steps before the straight path are checks, so a result says that each has passed. -/
theorem ends_of_corridor {corridor : Corridor} (h : g.corridor f source target = .ok corridor) :
    ∃ start more goal others, g.coreChips source = .ok (start :: more) ∧
      g.insideChips target = .ok (goal :: others) ∧ f.isChip start = true := by
  obtain ⟨sources, hsources, h⟩ := bind_eq_ok.1 h
  obtain ⟨start, hstart, h⟩ := bind_eq_ok.1 h
  obtain ⟨targets, htargets, h⟩ := bind_eq_ok.1 h
  obtain ⟨goal, hgoal, h⟩ := bind_eq_ok.1 h
  cases sources with
  | nil => contradiction
  | cons first more =>
      cases targets with
      | nil => contradiction
      | cons second others =>
          obtain rfl := Except.ok.inj hstart
          refine ⟨first, more, second, others, hsources, htargets, ?_⟩
          by_contra hdead
          rw [if_neg hdead] at h
          contradiction

/-- A corridor found between two entities of the grid leads from one to the other and meets neither
on the way. The walk along the straight path becomes loopless first, then it is cut at the two
groups. -/
theorem corridor_joins (f : Fabric) (g : EntityGraph) (source target : EntityId) (c : Corridor)
    (hgrid : ∀ endpoints ∈ g.entities, ∀ e ∈ endpoints, f.contains e.chip = true)
    (h : g.corridor f source target = .ok c) :
    ∃ sources targets, g.insideChips source = .ok sources ∧ g.insideChips target = .ok targets ∧
      c.Joins f sources targets := by
  obtain ⟨start, more, goal, others, hsource, htarget, hlive⟩ := ends_of_corridor h
  refine ⟨_, _, insideChips_of_coreChips hsource, htarget, ?_⟩
  have hgoal : f.contains goal = true := by
    obtain ⟨endpoints, hendpoints, x, hx, hxc⟩ :=
      endpoint_of_insideChips htarget (List.mem_cons_self ..)
    exact hxc ▸ hgrid endpoints (mem_entities hendpoints) x hx
  obtain ⟨straight, hstraight, hwalk, -⟩ :=
    Grid.straightRuns_walk (Fabric.contains_of_isChip hlive) hgoal
  rw [corridor_eq hsource htarget hlive hstraight] at h
  have hspec : Corridor.Follows f goal start straight
      (Corridor.walk f goal false start straight) := Corridor.walk_spec hlive hwalk rfl
  rcases hspec with ⟨path, hpath, hfollowed, -⟩ | ⟨a, b, herror, -⟩
  · rw [hpath] at h
    obtain rfl := Except.ok.inj h
    obtain ⟨-, hloopless, hnodup⟩ :=
      Corridor.removeLoops_spec (Corridor.leads_iff_isWalk.2 hfollowed)
    have hmem : ∀ (chips : List Chip) c,
        (Std.ExtTreeSet.ofList chips).contains c = true ↔ c ∈ chips := by
      intro chips c
      rw [Std.ExtTreeSet.contains_ofList, List.contains_iff_mem]
    exact Corridor.between_joins (hmem _) (hmem _) (List.mem_cons_self ..) (List.mem_cons_self ..)
      (Corridor.leads_iff_isWalk.1 hloopless) hnodup
  · rw [herror] at h
    contradiction

/-- Two rows of four chips, with the link from the second to the third chip of the lower row cut. -/
def tornMesh : Fabric :=
  (Fabric.intact { width := 4, height := 2, wraps := false }).killLink ⟨1, 0⟩ .east

/-- Two entities that share a chip on the lower row. -/
def sharedGraph : EntityGraph :=
  ⟨[[.core ⟨0, 0⟩ 1, .core ⟨1, 0⟩ 1], [.core ⟨3, 0⟩ 1, .core ⟨1, 0⟩ 2]]⟩

/-- The corridor leaves the source at the shared chip and does not end there. -/
theorem sharedGraph_joins :
    (∀ endpoints ∈ sharedGraph.entities, ∀ e ∈ endpoints, tornMesh.contains e.chip = true) ∧
    ∃ c, sharedGraph.corridor tornMesh 0 1 = .ok c ∧ c.exit = ⟨1, 0⟩ ∧ c.entry = ⟨3, 0⟩ ∧
      c.hops.length = 3 ∧
      ∃ sources targets, sharedGraph.insideChips 0 = .ok sources ∧
        sharedGraph.insideChips 1 = .ok targets ∧ c.Joins tornMesh sources targets := by
  have hgrid : ∀ endpoints ∈ sharedGraph.entities, ∀ e ∈ endpoints,
      tornMesh.contains e.chip = true := by decide +kernel
  have hok : sharedGraph.corridor tornMesh 0 1 =
      .ok ⟨⟨1, 0⟩, [⟨.northEast, ⟨2, 1⟩⟩, ⟨.south, ⟨2, 0⟩⟩, ⟨.east, ⟨3, 0⟩⟩]⟩ := by decide +kernel
  exact ⟨hgrid, _, hok, rfl, rfl, rfl, corridor_joins tornMesh sharedGraph 0 1 _ hgrid hok⟩

/-- On a grid with sides below `2 ^ 31`, where words of 32 bits hold the vector of the straight path:
between working first chips there is a corridor exactly when each working chip on the straight path
from one to the other is joined to the next. Where there is none, the error names two of them that
are not. -/
theorem corridor_ok_iff (f : Fabric) (hsides : f.IsNarrow) (g : EntityGraph)
    (source target : EntityId)
    (start goal : Chip) (more others : List Chip)
    (hsource : g.coreChips source = .ok (start :: more))
    (htarget : g.insideChips target = .ok (goal :: others))
    (hstart : f.isChip start = true) (hgoal : f.isChip goal = true) :
    f.FitsWords ∧ ∃ straight, f.straightRuns start goal = .ok straight ∧
      ((∃ c, g.corridor f source target = .ok c) ↔
        ((start :: straight.map (·.chip)).filter f.isChip).IsChain f.Joined) ∧
      ∀ error, g.corridor f source target = .error error → ∃ a b, error = .noLivePath a b ∧
        [a, b] <:+: (start :: straight.map (·.chip)).filter f.isChip ∧ ¬ f.Joined a b := by
  obtain ⟨straight, hstraight, hwalk, -⟩ := Grid.straightRuns_walk
    (Fabric.contains_of_isChip hstart) (Fabric.contains_of_isChip hgoal)
  refine ⟨hsides.fitsWords, straight, hstraight, ?_⟩
  have hspec : Corridor.Follows f goal start straight
      (Corridor.walk f goal false start straight) := Corridor.walk_spec hstart hwalk rfl
  rw [corridor_eq hsource htarget hstart hstraight, List.filter_cons_of_pos hstart]
  rcases hspec with ⟨path, hpath, -, hchain⟩ | ⟨a, b, herror, hno, hpair⟩
  · rw [hpath]
    exact ⟨iff_of_true ⟨_, rfl⟩ hchain, fun error h => by contradiction⟩
  · have hpair := hpair.resolve_right (by simp [hgoal])
    rw [herror]
    refine ⟨iff_of_false (fun ⟨_, h⟩ => by contradiction) fun hchain => hno ?_,
      fun error h => ⟨a, b, (Except.error.inj h).symm, hpair, hno⟩⟩
    simpa using hchain.infix hpair

/-- A mesh with a working chip all of whose links are dead. -/
def islandMesh : Fabric :=
  Direction.all.foldl (fun f d => f.killLink ⟨1, 0⟩ d)
    (.intact { width := 3, height := 2, wraps := false })

/-- Two entities with that chip between them. -/
def islandGraph : EntityGraph :=
  ⟨[[.core ⟨0, 0⟩ 1], [.core ⟨2, 0⟩ 1]]⟩

/-- The straight path passes the chip without links, and the bridge to it is missing. -/
theorem islandGraph_fails :
    islandGraph.corridor islandMesh 0 1 = .error (.noLivePath ⟨0, 0⟩ ⟨1, 0⟩) := by
  decide +kernel

/-- That the first chips are joined is not enough: a chip between them that neither entity needs
decides whether there is a corridor. -/
theorem island_decides :
    (∀ endpoints ∈ islandGraph.entities, ∀ e ∈ endpoints,
      islandMesh.contains e.chip = true ∧ e.isCore = true) ∧
    islandGraph.coreChips 0 = .ok [⟨0, 0⟩] ∧ islandMesh.isChip ⟨0, 0⟩ = true ∧
    islandGraph.insideChips 1 = .ok [⟨2, 0⟩] ∧ islandMesh.isChip ⟨2, 0⟩ = true ∧
    islandMesh.Joined ⟨0, 0⟩ ⟨2, 0⟩ ∧
    islandGraph.corridor islandMesh 0 1 = .error (.noLivePath ⟨0, 0⟩ ⟨1, 0⟩) := by
  refine ⟨by decide +kernel, by decide +kernel, by decide +kernel, by decide +kernel,
    by decide +kernel, ?_, islandGraph_fails⟩
  -- The way over the second row.
  have hup : islandMesh.Linked ⟨0, 0⟩ ⟨1, 1⟩ := ⟨.northEast, by decide +kernel⟩
  have hover : islandMesh.Linked ⟨1, 1⟩ ⟨2, 1⟩ := ⟨.east, by decide +kernel⟩
  have hdown : islandMesh.Linked ⟨2, 1⟩ ⟨2, 0⟩ := ⟨.south, by decide +kernel⟩
  exact .head hup (.head hover (.single hdown))

/-- Around the cut link each chip on the straight path is joined to the next, so there is a
corridor. To the chip without links there is none. -/
theorem corridor_torn_island :
    (∃ straight, tornMesh.straightRuns ⟨0, 0⟩ ⟨3, 0⟩ = .ok straight ∧
      (((⟨0, 0⟩ : Chip) :: straight.map (·.chip)).filter tornMesh.isChip).IsChain
        tornMesh.Joined) ∧
    ∃ straight, islandMesh.straightRuns ⟨0, 0⟩ ⟨2, 0⟩ = .ok straight ∧
      ¬ (((⟨0, 0⟩ : Chip) :: straight.map (·.chip)).filter islandMesh.isChip).IsChain
        islandMesh.Joined := by
  constructor
  · obtain ⟨-, straight, hstraight, hiff, -⟩ := corridor_ok_iff tornMesh (by decide) sharedGraph 0 1
      ⟨0, 0⟩ ⟨3, 0⟩ [⟨1, 0⟩] [⟨1, 0⟩] (by decide +kernel) (by decide +kernel) (by decide +kernel)
      (by decide +kernel)
    exact ⟨straight, hstraight, hiff.1 (exists_of_isOk (by decide +kernel))⟩
  · obtain ⟨-, straight, hstraight, hiff, -⟩ := corridor_ok_iff islandMesh (by decide) islandGraph 0
      1 ⟨0, 0⟩ ⟨2, 0⟩ [] [] (by decide +kernel) (by decide +kernel) (by decide +kernel)
      (by decide +kernel)
    refine ⟨straight, hstraight, fun hchain => ?_⟩
    obtain ⟨c, hc⟩ := hiff.2 hchain
    rw [islandGraph_fails] at hc
    contradiction

end EntityGraph

end Multicast
