import Multicast.Proofs.Entity.Planted
import Multicast.Proofs.Growth.OffGrid

/-!
# `Multicast.Proofs.Entity.Halts`: what may end the routing of a demand

On the grid the routing of a demand may be refused for four reasons (`EntityGraph.Refusal`): an
entity that does not exist or has no core, a dead chip of a source, or working chips between which
there is no path. But nothing asks whether the endpoints of an entity lie on the grid before a path
is followed to them. The tree that is put together stays on it (`Growth.Planted`), and what becomes
of an endpoint off the grid depends on the edges. On a mesh the path to it stops at an edge, either
as part of a corridor or where its chip is attached. On a torus the path leads round to another
chip, and it is only noticed that the endpoint has no node to hang off.

A source ends with the first corridor that is missing (`missing?`), else with what hanging its
sinks off the tree comes to (`Growth.Hung`, `routeSource_ends`). All errors of a demand are then
known (`Halt`, `route_halts`): the refusals and, on a mesh with an endpoint of a target off it, one
about a chip from which a path leads off. `route_off` says which of them a demand with such an
endpoint ends in.
-/

set_option autoImplicit false

namespace Multicast

namespace EntityGraph

/-- The errors that may end the routing of a demand on the grid. -/
inductive Refusal : RouteError → Prop
  | unknownEntity (e : EntityId) : Refusal (.unknownEntity e)
  | noCore (e : EntityId) : Refusal (.noCore e)
  | deadRoot (c : Chip) : Refusal (.deadRoot c)
  | noLivePath (a b : Chip) : Refusal (.noLivePath a b)

end EntityGraph

open EntityGraph (Refusal)

/-! ### Trees -/

namespace Growth

variable {f : Fabric} {grid : Grid} {g g' : Growth} {b c : Chip} {chips : List Chip} {radius : Nat}

/-- What attaching chips to a tree on a grid comes to. Those on the grid are in the tree then, and
only round the edges of a torus anything was done about others; on a mesh one of these stops it. -/
inductive Attached (grid : Grid) (c : Chip) (g : Growth) (chips : List Chip) :
    Except RouteError Growth → Prop
  | grown (g' : Growth) (hplanted : Planted grid c g')
      (hkept : ∀ a, g.index.contains a = true → g'.index.contains a = true)
      (hhas : ∀ b ∈ chips, grid.contains b = true → g'.index.contains b = true)
      (hthere : ∀ b ∈ chips, grid.contains b = true ∨ grid.wraps = true) :
      Attached grid c g chips (.ok g')
  | stopped (e : Chip) (he : grid.contains e = true) (hmesh : grid.wraps = false)
      (hoff : ∃ b ∈ chips, grid.contains b = false) :
      Attached grid c g chips (.error (.offMachine e))

/-- A new chip that no path leads to cannot be attached. -/
theorem result_attach_eq_error {e : RouteError} (hno : g.index.contains b = false)
    (h : grid.straightRuns (g.startOf grid b radius) b = .error e) :
    (g.attach grid b radius).result = .error e := by
  unfold startOf at h
  rw [attach, if_neg (by simp [hno])]
  simp only [h]
  rfl

namespace Planted

/-- A chip of the grid can always be attached. Towards another one the straight path either runs
round a torus, and attaches the chip in its place, or stops at the edge of a mesh. There is nothing
to do for a chip of the tree, and it is on the grid. Where the straight path arrives, its part
behind the tree is hung up, and this ends on the chip if the chip is on the grid. -/
theorem attached (h : Planted grid c g) (b : Chip) (radius : Nat) :
    Attached grid c g [b] (g.attach grid b radius).result := by
  cases hold : g.index.contains b with
  | true =>
      have hb := h.inside b hold
      obtain ⟨g', hok, hplanted, hkept, hhas⟩ := h.attach hb radius
      rw [hok]
      exact .grown g' hplanted hkept (by simp [hhas]) (by simp [hb])
  | false =>
      have hroot : g.index.contains g.rootChip = true :=
        (h.sound.rootChip h.root).symm ▸ h.contains_root
      have hstart := contains_startOf hroot grid b radius
      have hheads := Grid.straightRuns_heads (h.inside _ hstart) b
      generalize hruns : grid.straightRuns (g.startOf grid b radius) b = runs at hheads
      cases hheads with
      | arrives hops a hwalk hnodup hinside hend hthere =>
          obtain ⟨g', hg', hplanted, hkept, hhas⟩ :=
            h.appendPath hstart ⟨hinside, (List.nodup_cons.1 hnodup).2⟩
          have hok : (g.attach grid b radius).result = .ok g' :=
            (congrArg Attempt.result (attach_eq hold hruns)).trans hg'
          rw [hok]
          rw [hwalk.endOf_eq] at hhas
          refine .grown g' hplanted hkept ?_ (by simpa using hthere)
          intro x hx hin
          obtain rfl := List.mem_singleton.1 hx
          exact hend hin ▸ hhas
      | stops e he hmesh hoff =>
          rw [result_attach_eq_error hold hruns]
          exact .stopped e he hmesh ⟨b, List.mem_singleton_self b, hoff⟩

/-- The same holds of chips attached one after another: the first one off a mesh stops them, and
those before it stay attached. By induction on the chips. -/
theorem attachedAll (h : Planted grid c g) (chips : List Chip) (radius : Nat) :
    Attached grid c g chips (g.attachAll grid radius chips) := by
  induction chips generalizing g with
  | nil => exact .grown g h (fun _ => id) (by simp) (by simp)
  | cons b rest ih =>
      have hfirst := h.attached b radius
      rw [Growth.attachAll]
      generalize (g.attach grid b radius).result = result at hfirst
      cases hfirst with
      | stopped e he hmesh hoff =>
          obtain ⟨x, hx, hxoff⟩ := hoff
          exact .stopped e he hmesh ⟨x, List.mem_cons.2 (.inl (List.mem_singleton.1 hx)), hxoff⟩
      | grown next hnext hkept hhas hthere =>
          have hrest := ih hnext
          show Attached grid c g (b :: rest) (next.attachAll grid radius rest)
          generalize next.attachAll grid radius rest = result at hrest
          cases hrest with
          | stopped e he hmesh hoff =>
              obtain ⟨x, hx, hxoff⟩ := hoff
              exact .stopped e he hmesh ⟨x, List.mem_cons_of_mem _ hx, hxoff⟩
          | grown g' hplanted hkept' hhas' hthere' =>
              have hb := List.mem_singleton_self b
              exact .grown g' hplanted (fun a ha => hkept' a (hkept a ha))
                (List.forall_mem_cons.2 ⟨fun hin => hkept' b (hhas b hb hin), hhas'⟩)
                (List.forall_mem_cons.2 ⟨hthere b hb, hthere'⟩)

end Planted

/-- An endpoint off the grid has no node to hang off. By induction on the endpoints. Those before
the first one off the grid have their nodes and are hung up. -/
theorem addTerminals_off {start : Chip} {endpoints : List Endpoint}
    (hinside : ∀ b, g.index.contains b = true → grid.contains b = true)
    (hhas : ∀ e ∈ endpoints, grid.contains e.chip = true → g.index.contains e.chip = true)
    (hoff : ∃ e ∈ endpoints, grid.contains e.chip = false) :
    ∃ e ∈ endpoints, grid.contains e.chip = false ∧
      g.addTerminals start endpoints = .error (.noLivePath start e.chip) := by
  induction endpoints generalizing g with
  | nil => simp at hoff
  | cons e rest ih =>
      obtain ⟨he, hrest⟩ := List.forall_mem_cons.1 hhas
      rw [addTerminals, addTerminal]
      cases hin : grid.contains e.chip with
      | false =>
          have hnone : g.index.get? e.chip = none := by
            cases hget : g.index.get? e.chip with
            | none => rfl
            | some n =>
                have hinside := hinside _ (contains_iff_exists.2 ⟨n, hget⟩)
                rw [hin] at hinside
                contradiction
          rw [hnone]
          exact ⟨e, List.mem_cons_self .., hin, rfl⟩
      | true =>
          obtain ⟨n, hn⟩ := contains_iff_exists.1 (he hin)
          obtain ⟨x, hx, hxoff⟩ := hoff
          have hx : x ∈ rest := by
            rcases List.mem_cons.1 hx with rfl | hx
            · rw [hin] at hxoff
              contradiction
            · exact hx
          rw [hn]
          -- Hanging up an endpoint leaves the index as it is.
          obtain ⟨y, hy, hyoff, herror⟩ :=
            ih (g := { g with tree := g.tree.addEdge n ⟨some e.route, .terminal e⟩ })
              hinside hrest ⟨x, hx, hxoff⟩
          exact ⟨y, List.mem_cons_of_mem _ hy, hyoff, herror⟩

end Growth

/-! ### Corridors -/

namespace Corridor

variable {f : Fabric} {c goal start : Chip} {hops : List Hop}

/-- Between two chips there is a bridge, or the error says that there is none. -/
theorem bridge_settles (f : Fabric) (a b : Chip) :
    Settles Refusal (fun _ => True) (bridge f a b) := by
  rw [bridge]
  split
  · trivial
  · exact .noLivePath a b

/-- The chip that hops should lead to is for the error only. By induction on the hops: no step looks
at the target but the last, which names it. -/
theorem walk_retarget (target other : Chip) (broken : Bool) (c : Chip) (hops : List Hop) :
    Settles Refusal (fun path => walk f target broken c hops = .ok path)
      (walk f other broken c hops) := by
  induction hops generalizing broken c with
  | nil =>
      cases broken with
      | true => exact .noLivePath c other
      | false => rfl
  | cons hop rest ih =>
      rw [walk, walk]
      split
      · refine (ih false hop.chip).bind fun onward _ honward => ?_
        show (walk f target false hop.chip rest >>= _) = _
        rw [honward]
        rfl
      · split
        · refine (bridge_settles f c hop.chip).bind fun around haround _ => ?_
          refine (ih false hop.chip).bind fun onward _ honward => ?_
          show (bridge f c hop.chip >>= _) = _
          rw [haround]
          show (walk f target false hop.chip rest >>= _) = _
          rw [honward]
          rfl
        · exact ih true c

/-- A path of the grid is followed to where it leads, whatever it was meant to lead to, unless it is
refused. -/
theorem walk_settles {straight : List Hop} (hlive : f.isChip start = true)
    (hwalk : f.toGrid.IsWalk start straight c) (goal : Chip) :
    Settles Refusal (fun path => f.IsWalk start path c) (walk f goal false start straight) := by
  refine (walk_retarget c goal false start straight).imp (fun _ => id) fun path hpath => ?_
  have hspec : Follows f c start straight (walk f c false start straight) :=
    walk_spec hlive hwalk rfl
  rcases hspec with ⟨path', hpath', hfollowed, -⟩ | ⟨a, b, herror, -⟩
  · obtain rfl := Except.ok.inj (hpath.symm.trans hpath')
    exact hfollowed
  · rw [hpath] at herror
    contradiction

/-- What lies between two groups of chips on a walk without loops is a track from a chip of the
grid. Nothing is assumed of the groups, and the corridor may meet neither of them; it is a part of
the walk all the same. -/
theorem between_isTrack {inSource inTarget : Chip → Bool} (hlive : f.isChip start = true)
    (hwalk : f.IsWalk start hops c) (hnodup : (start :: hops.map (·.chip)).Nodup) :
    let corridor := between inSource inTarget start hops
    f.contains corridor.exit = true ∧ f.toGrid.IsTrack corridor.hops := by
  obtain ⟨skipped, hsplit, hanchor⟩ := Anchor.truncate_split inSource start hops
  rw [between]
  generalize Anchor.truncate inSource start hops = rest at *
  obtain ⟨exit, onward⟩ := rest
  dsimp only at *
  subst hsplit hanchor
  obtain ⟨hearly, -⟩ := takeThrough_spec inTarget (Grid.endOf start skipped) onward
  have htrack := hwalk.isTrack hnodup
  have hsub := hearly.sublist.trans (List.sublist_append_right skipped onward)
  refine ⟨?_, fun hop hhop => htrack.inside hop (hsub.subset hhop), ?_⟩
  · -- The walk leaves the first group where it starts or on one of its chips.
    rcases Growth.endOf_mem start skipped with heq | hmem
    · rw [heq]
      exact Fabric.contains_of_isChip hlive
    · obtain ⟨hop, hhop, heq⟩ := List.mem_map.1 hmem
      rw [← heq]
      exact htrack.inside hop (List.mem_append_left _ hhop)
  · exact htrack.nodup.sublist (hsub.map _)

end Corridor

/-- A proper tree is repaired or refused. -/
theorem Fabric.repair_settles {f : Fabric} {t : RouteTree} (h : t.IsProper) :
    Settles Refusal (fun _ => True) (f.repair t) := by
  obtain ⟨c, hc⟩ := RouteTree.exists_chip?_iff.2 (h.lt_size .refl)
  have hends := repair_ends (f := f) h hc
  generalize f.repair t = result at hends
  cases hends with
  | dead => exact .deadRoot c
  | stranded hstranded =>
      obtain ⟨_, _, -, -, -, -, rfl⟩ := hstranded
      exact .noLivePath _ _
  | cutOff => exact .noLivePath _ _
  | repaired => trivial

/-! ### Nets -/

namespace Growth

variable {f : Fabric} {g : Growth} {c : Chip}

/-- The net whose tree a tree becomes when its sinks are attached and hung up and the whole is
repaired. -/
def hang (g : Growth) (f : Fabric) (radius : Nat) (net : Net) : Except RouteError RoutedNet := do
  let attached ← g.attachAll f.toGrid radius (net.sinks.map Endpoint.chip)
  let grown ← attached.addTerminals net.source.chip net.sinks
  let repaired ← f.repair grown.tree
  return ⟨net, repaired.tree, repaired.report⟩

/-- What hanging sinks off a tree comes to that is rooted on a chip. A sink off a mesh stops it, one
off a torus is not in the tree, and when there is none the repair decides. -/
inductive Hung (f : Fabric) (c : Chip) (sinks : List Endpoint) : Except RouteError RoutedNet → Prop
  | stopped (b : Chip) (hb : f.contains b = true) (hmesh : f.wraps = false)
      (hoff : ∃ e ∈ sinks, f.contains e.chip = false) : Hung f c sinks (.error (.offMachine b))
  | missed (e : Endpoint) (he : e ∈ sinks) (hoff : f.contains e.chip = false)
      (htorus : f.wraps = true) : Hung f c sinks (.error (.noLivePath c e.chip))
  | settled (result : Except RouteError RoutedNet) (hon : ∀ e ∈ sinks, f.contains e.chip = true)
      (hresult : Settles Refusal (fun _ => True) result) : Hung f c sinks result

/-- The sinks of a net are attached, then hung off their nodes, then what was grown is repaired. The
first step fails for a sink off a mesh, the second for one off a torus, and the repair is refused
only for want of a path. -/
theorem Planted.hang (h : Planted f.toGrid c g) (net : Net) (hsource : net.source.chip = c)
    (radius : Nat) : Hung f c net.sinks (g.hang f radius net) := by
  obtain rfl := hsource
  have hattached := h.attachedAll (net.sinks.map Endpoint.chip) radius
  rw [Growth.hang]
  generalize g.attachAll f.toGrid radius (net.sinks.map Endpoint.chip) = result at hattached
  cases hattached with
  | stopped b hb hmesh hoff =>
      obtain ⟨_, hmem, hoff⟩ := hoff
      obtain ⟨e, he, rfl⟩ := List.mem_map.1 hmem
      exact .stopped b hb hmesh ⟨e, he, hoff⟩
  | grown attached hplanted hkept hhas hthere =>
      have hhas : ∀ e ∈ net.sinks, f.contains e.chip = true →
          attached.index.contains e.chip = true :=
        fun e he => hhas _ (List.mem_map_of_mem he)
      show Hung f net.source.chip net.sinks (attached.addTerminals net.source.chip net.sinks >>= _)
      by_cases hoff : ∃ e ∈ net.sinks, f.contains e.chip = false
      · obtain ⟨e, he, hoff, herror⟩ := addTerminals_off hplanted.inside hhas hoff
        have htorus := (hthere _ (List.mem_map_of_mem he)).resolve_left (by simp [hoff])
        rw [herror]
        exact .missed e he hoff htorus
      · have hon : ∀ e ∈ net.sinks, f.contains e.chip = true := by simpa using hoff
        obtain ⟨grown, hgrown⟩ :=
          addTerminals_ok net.source.chip fun e he => hhas e he (hon e he)
        obtain ⟨hsound, -⟩ := hplanted.sound.addTerminals hgrown
        rw [hgrown]
        exact .settled _ hon ((Fabric.repair_settles hsound.isProper).bind fun _ _ _ => trivial)

end Growth

namespace EntityGraph

variable {g : EntityGraph} {f : Fabric} {radius : Nat} {d : Demand} {source : Endpoint}
  {p : Partition} {target : EntityId} {targets : List EntityId} {all : List Endpoint}

/-- Only an entity that does not exist has no list of endpoints. -/
theorem endpoints_settles (g : EntityGraph) (e : EntityId) :
    Settles Refusal (fun _ => True) (g.endpoints e) := by
  unfold endpoints
  split
  · trivial
  · exact .unknownEntity e

/-- The chips of the cores of an entity are found if the entity exists, though there may be none. -/
theorem coreChips_settles (g : EntityGraph) (e : EntityId) :
    Settles Refusal (fun _ => True) (g.coreChips e) :=
  (g.endpoints_settles e).bind fun _ _ _ => trivial

/-- So are the chips that count as inside it. -/
theorem insideChips_settles (g : EntityGraph) (e : EntityId) :
    Settles Refusal (fun _ => True) (g.insideChips e) := by
  refine (g.endpoints_settles e).bind fun _ _ _ => ?_
  split <;> trivial

/-- Looking through the targets of a demand can find an entity that does not exist, and nothing else
amiss. -/
theorem checkEntities_settles (g : EntityGraph) (targets : List EntityId) :
    Settles Refusal (fun _ => True) (g.checkEntities targets) := by
  induction targets with
  | nil => trivial
  | cons e rest ih => exact (g.endpoints_settles e).bind fun _ _ _ => ih

/-- Gathering the endpoints of all targets fails for an entity that does not exist only. -/
theorem endpointsOfAll_settles (g : EntityGraph) (targets : List EntityId) :
    Settles Refusal (fun _ => True) (g.endpointsOfAll targets) := by
  induction targets with
  | nil => trivial
  | cons e rest ih =>
      exact (g.endpoints_settles e).bind fun _ _ _ => ih.bind fun _ _ _ => trivial

/-- The first of some chips is one of them; where there is none, the entity has no core. -/
theorem firstChip_settles (e : EntityId) (chips : List Chip) :
    Settles Refusal (· ∈ chips) (Corridor.firstChip e chips) := by
  cases chips with
  | nil => exact .noCore e
  | cons c rest => exact List.mem_cons_self ..

/-- An entity has an endpoint off the grid. -/
def Strays (g : EntityGraph) (f : Fabric) (e : EntityId) : Prop :=
  ∃ endpoints, g.endpoints e = .ok endpoints ∧ ∃ x ∈ endpoints, f.contains x.chip = false

/-- The errors that may end the routing to some targets. One of them comes up only on a mesh, when a
target has an endpoint off it; it is about a chip of the mesh, from which a path leads off. -/
inductive Halt (g : EntityGraph) (f : Fabric) (targets : List EntityId) : RouteError → Prop
  | refused {e : RouteError} (he : Refusal e) : Halt g f targets e
  | edge (c : Chip) (hc : f.contains c = true) (hmesh : f.wraps = false)
      (hstrays : ∃ target ∈ targets, g.Strays f target) : Halt g f targets (.offMachine c)

/-- What is refused on a grid may end the routing anywhere. -/
theorem halts_of_settles {α : Type} {x : Except RouteError α} {good : α → Prop}
    (h : Settles Refusal good x) : Settles (Halt g f targets) good x :=
  h.imp (fun _ => .refused) fun _ => id

/-- A corridor is a track from a chip of the grid, unless it is missing. Each step of finding it
settles: the lists of chips, the first chip of each, the straight path, the walk along it. The
straight path alone may end at the edge of a mesh, when the chip it is for is off it. -/
theorem corridor_halts (g : EntityGraph) (f : Fabric) (source : EntityId)
    (htarget : target ∈ targets) :
    Settles (Halt g f targets) (fun c => f.contains c.exit = true ∧ f.toGrid.IsTrack c.hops)
      (g.corridor f source target) := by
  refine (halts_of_settles (g.coreChips_settles source)).bind fun sources _ _ => ?_
  refine (halts_of_settles (firstChip_settles source sources)).bind fun start _ _ => ?_
  refine (halts_of_settles (g.insideChips_settles target)).bind fun chips hchips _ => ?_
  refine (halts_of_settles (firstChip_settles target chips)).bind fun goal _ hgoal => ?_
  split
  · next hlive =>
    have hheads := Grid.straightRuns_heads (Fabric.contains_of_isChip hlive) goal
    generalize f.straightRuns start goal = result at hheads
    cases hheads with
    | stops c hc hmesh hoff =>
        obtain ⟨endpoints, hendpoints, x, hx, rfl⟩ := endpoint_of_insideChips hchips hgoal
        exact .edge c hc hmesh ⟨target, htarget, endpoints, hendpoints, x, hx, hoff⟩
    | arrives straight c hwalk hnodup hinside hend hthere =>
        refine (halts_of_settles (Corridor.walk_settles hlive hwalk goal)).bind
          fun path _ hfollowed => ?_
        obtain ⟨-, hloopless, hnodup⟩ :=
          Corridor.removeLoops_spec (Corridor.leads_iff_isWalk.2 hfollowed)
        exact Corridor.between_isTrack hlive (Corridor.leads_iff_isWalk.1 hloopless) hnodup
  · exact .refused (.deadRoot start)

/-- The legs to targets can be used. -/
theorem usable_leg (g : EntityGraph) (f : Fabric) (source : EntityId) (htarget : target ∈ targets) :
    (g.leg f source target).Usable (Halt g f targets) f where
  corridor := corridor_halts g f source htarget
  farEnd t ht := by
    simp only [leg, Thunk.get] at ht
    split at ht
    · exact (localTree?_spec ht).2
    · contradiction

/-- The error of the first corridor that is needed and not there. -/
def missing? (g : EntityGraph) (f : Fabric) (source : EntityId) (targets : List EntityId) :
    Option RouteError :=
  targets.findSome? fun target =>
    if target = source then none
    else
      match g.corridor f source target with
      | .ok _ => none
      | .error e => some e

/-- Looking for a missing corridor through the legs to the targets is looking for it through the
targets. -/
theorem missing?_eq (g : EntityGraph) (f : Fabric) (source : EntityId) (targets : List EntityId) :
    (targets.map (g.leg f source)).findSome? (Growth.missingLeg? source) =
      g.missing? f source targets := by
  rw [List.findSome?_map]
  rfl

/-- A corridor is missing for one of the reasons that may end the routing of the demand. -/
theorem halt_of_missing? {e : RouteError} {source : EntityId}
    (h : g.missing? f source targets = some e) : Halt g f targets e := by
  obtain ⟨target, htarget, h⟩ := List.exists_of_findSome?_eq_some h
  have hhalts := corridor_halts g f source htarget
  split at h
  · contradiction
  · split at h
    · contradiction
    · next e' he' =>
      obtain rfl := Option.some.inj h
      rw [he'] at hhalts
      exact hhalts

/-- The sinks of a net that are off the grid are the endpoints of the targets that are, as its
source is not. -/
theorem off_iff_strays (hall : g.endpointsOfAll d.targets = .ok all)
    (hsource : f.contains source.chip = true) (p : Partition) :
    (∃ e ∈ (Net.of p source (all.filter fun e => e != source)).sinks, f.contains e.chip = false) ↔
      ∃ target ∈ d.targets, g.Strays f target := by
  constructor
  · intro h
    obtain ⟨e, he, hoff⟩ := h
    obtain ⟨-, target, htarget, endpoints, hendpoints, hmem⟩ := (mem_sinks hall).1 he
    exact ⟨target, htarget, endpoints, hendpoints, e, hmem, hoff⟩
  · intro h
    obtain ⟨target, htarget, endpoints, hendpoints, e, hmem, hoff⟩ := h
    refine ⟨e, (mem_sinks hall).2 ⟨?_, target, htarget, endpoints, hendpoints, hmem⟩, hoff⟩
    rintro rfl
    rw [hsource] at hoff
    contradiction

/-- A working source ends with the first corridor that is missing, else with what hanging its sinks
off the tree comes to. Grafting the legs ends with the first corridor that is missing, by
`Planted.graftLegs`. If none is missing there is a tree rooted on the source, from which the sinks
are hung. -/
theorem routeSource_ends (hlive : f.isChip source.chip = true)
    (hall : g.endpointsOfAll d.targets = .ok all) (radius : Nat) (p : Partition) :
    let net := Net.of p source (all.filter fun e => e != source)
    let result := g.routeSource f radius d (d.targets.map (g.leg f d.source)) source p
    match g.missing? f d.source d.targets with
    | some e => result = .error e
    | none => Growth.Hung f source.chip net.sinks result := by
  intro net result
  have hstart := Growth.planted_single (Fabric.contains_of_isChip hlive)
  let nearEnd := Thunk.mk fun _ => g.localTree? f d.source source.chip
  have hnear : ∀ t, nearEnd.get = some t → t.root = source.chip ∧ t.OnGrid f :=
    fun t => localTree?_spec
  have hlegs : ∀ leg ∈ d.targets.map (g.leg f d.source),
      leg.Usable (Halt g f d.targets) f := by
    intro leg hleg
    obtain ⟨target, htarget, rfl⟩ := List.mem_map.1 hleg
    exact usable_leg g f d.source htarget
  have hresult : result =
      ((Growth.single source.chip).graftLegs f radius d.source source.chip nearEnd
        (d.targets.map (g.leg f d.source)) >>= fun grafted => grafted.hang f radius net) := by
    show g.routeSource f radius d (d.targets.map (g.leg f d.source)) source p = _
    rw [routeSource, if_pos hlive, hall]
    rfl
  have hends := hstart.graftLegs hnear hlegs radius d.source
  rw [missing?_eq] at hends
  rw [hresult]
  cases hmissing : g.missing? f d.source d.targets with
  | some e =>
      rw [hmissing] at hends
      dsimp only at hends ⊢
      rw [hends]
      rfl
  | none =>
      rw [hmissing] at hends
      obtain ⟨grafted, hgrafted, hplanted⟩ := hends
      rw [hgrafted]
      exact hplanted.hang net rfl radius

/-- The net of a source ends with nothing but a refusal or an edge of the mesh: its corridors do,
and so does hanging its sinks off the tree. By `routeSource_ends`, where the source works and all
targets exist. -/
theorem routeSource_halts (g : EntityGraph) (f : Fabric) (radius : Nat) (d : Demand)
    (source : Endpoint) (p : Partition) : Settles (Halt g f d.targets) (fun _ => True)
      (g.routeSource f radius d (d.targets.map (g.leg f d.source)) source p) := by
  cases hlive : f.isChip source.chip with
  | false =>
      rw [routeSource, if_neg (by simp [hlive])]
      exact .refused (.deadRoot source.chip)
  | true =>
      have hsettles : Settles (Halt g f d.targets) (fun _ => True) (g.endpointsOfAll d.targets) :=
        halts_of_settles (g.endpointsOfAll_settles d.targets)
      cases hall : g.endpointsOfAll d.targets with
      | error e =>
          rw [hall] at hsettles
          rw [routeSource, if_pos hlive, hall]
          exact hsettles
      | ok all =>
          have hends := routeSource_ends hlive hall radius p
          have hstrays := off_iff_strays hall (Fabric.contains_of_isChip hlive) p
          dsimp only at hends
          generalize g.routeSource f radius d _ source p = result at hends ⊢
          cases hmissing : g.missing? f d.source d.targets with
          | some e =>
              rw [hmissing] at hends
              obtain rfl : result = .error e := hends
              exact halt_of_missing? hmissing
          | none =>
              rw [hmissing] at hends
              cases hends with
              | stopped b hb hmesh hoff => exact .edge b hb hmesh (hstrays.1 hoff)
              | missed e => exact .refused (.noLivePath source.chip e.chip)
              | settled result hon hresult => exact halts_of_settles hresult

/-- The nets of a demand are made source by source, and the first that ends ends all of them. -/
theorem routeSources_halts (g : EntityGraph) (f : Fabric) (radius : Nat) (d : Demand)
    (sources : List Endpoint) (p : Partition) : Settles (Halt g f d.targets) (fun _ => True)
      (g.routeSources f radius d (d.targets.map (g.leg f d.source)) p sources) := by
  induction sources generalizing p with
  | nil => trivial
  | cons source rest ih =>
      exact (routeSource_halts g f radius d source p).bind fun _ _ _ =>
        (ih (p.offset 1)).bind fun _ _ _ => trivial

/-- A demand gets its nets, or ends with an error that there may be on the grid, or on a mesh with
one about a chip of the mesh, when a target has an endpoint off it. -/
theorem route_halts (g : EntityGraph) (f : Fabric) (radius : Nat) (d : Demand) :
    Settles (Halt g f d.targets) (fun _ => True) (g.route f radius d) := by
  refine (halts_of_settles (g.checkEntities_settles d.targets)).bind fun _ _ _ => ?_
  have hcores : Settles Refusal (fun _ => True) (g.cores d.source) :=
    (g.endpoints_settles d.source).bind fun _ _ _ => trivial
  refine (halts_of_settles hcores).bind fun sources _ _ => ?_
  split
  · exact .refused (.noCore d.source)
  · exact routeSources_halts g f radius d _ d.partition

/-- Entries are not put into tables yet, so they cannot disagree. -/
theorem Halt.ne_conflict {e : RouteError} (h : Halt g f targets e) (c : Chip) (p : Partition) :
    e ≠ .conflict c p := by
  rintro rfl
  cases h with
  | refused he => cases he

/-- An error about a chip off the machine comes up on a mesh only, and the chip it names is one of
the mesh. -/
theorem Halt.offMachine {c : Chip} (h : Halt g f targets (.offMachine c)) :
    f.contains c = true ∧ f.wraps = false ∧ ∃ target ∈ targets, g.Strays f target := by
  cases h with
  | refused he => cases he
  | edge c hc hmesh hstrays => exact ⟨hc, hmesh, hstrays⟩

/-! ### Demands with endpoints off the grid -/

/-- A working source does not get its net when a target has an endpoint off the grid. On a mesh the
error is the one about a chip off the machine, unless a corridor is missing for another reason; on a
torus it never is. -/
theorem routeSource_off (hlive : f.isChip source.chip = true)
    (hall : g.endpointsOfAll d.targets = .ok all)
    (hoff : ∃ target ∈ d.targets, g.Strays f target) (radius : Nat) (p : Partition) :
    ∃ e, g.routeSource f radius d (d.targets.map (g.leg f d.source)) source p = .error e ∧
      ((∃ c, e = .offMachine c) ↔ f.wraps = false ∧
        ∀ e', g.missing? f d.source d.targets = some e' → ∃ c, e' = .offMachine c) := by
  have hends := routeSource_ends hlive hall radius p
  obtain ⟨x, hx, hxoff⟩ := (off_iff_strays hall (Fabric.contains_of_isChip hlive) p).2 hoff
  dsimp only at hends
  generalize g.routeSource f radius d _ source p = result at hends ⊢
  cases hmissing : g.missing? f d.source d.targets with
  | some e =>
      rw [hmissing] at hends
      refine ⟨e, hends, ?_⟩
      constructor
      · intro h
        obtain ⟨c, rfl⟩ := h
        obtain ⟨-, hmesh, -⟩ := (halt_of_missing? hmissing).offMachine
        exact ⟨hmesh, fun e' he' => ⟨c, (Option.some.inj he').symm⟩⟩
      · intro h
        exact h.2 e rfl
  | none =>
      rw [hmissing] at hends
      cases hends with
      | stopped b hb hmesh => exact ⟨_, rfl, iff_of_true ⟨b, rfl⟩ ⟨hmesh, by simp⟩⟩
      | missed e he heoff htorus =>
          refine ⟨_, rfl, iff_of_false (by simp) fun h => ?_⟩
          rw [htorus] at h
          exact absurd h.1 (by decide)
      | settled result hon =>
          have hin := hon x hx
          rw [hxoff] at hin
          contradiction

/-- All targets exist just when their endpoints can be gathered. -/
theorem checkEntities_eq_ok :
    g.checkEntities targets = .ok () ↔ ∃ all, g.endpointsOfAll targets = .ok all := by
  induction targets with
  | nil => exact iff_of_true rfl ⟨[], rfl⟩
  | cons e rest ih =>
      rw [checkEntities, endpointsOfAll]
      cases g.endpoints e with
      | error e => exact iff_of_false (by simp [bind, Except.bind]) (by simp [bind, Except.bind])
      | ok endpoints =>
          show g.checkEntities rest = .ok () ↔ ∃ all, (g.endpointsOfAll rest >>= _) = .ok all
          rw [ih]
          cases g.endpointsOfAll rest with
          | error e => simp [bind, Except.bind]
          | ok others => exact iff_of_true ⟨_, rfl⟩ ⟨_, rfl⟩

/-- From cores on working chips a demand does not get its nets when a target has an endpoint off the
grid. On a mesh the error is the one about a chip off the machine, if there is a core and all
targets exist, unless a corridor is missing for another reason. The first source decides, since its
net is made first and fails. -/
theorem route_off {sources : List Endpoint} (hsources : g.endpoints d.source = .ok sources)
    (hcores : ∀ e ∈ sources, e.isCore = true ∧ f.isChip e.chip = true)
    (hoff : ∃ target ∈ d.targets, g.Strays f target) (radius : Nat) :
    ∃ e, g.route f radius d = .error e ∧
      ((∃ c, e = .offMachine c) ↔ f.wraps = false ∧ sources ≠ [] ∧
        g.checkEntities d.targets = .ok () ∧
        ∀ e', g.missing? f d.source d.targets = some e' → ∃ c, e' = .offMachine c) := by
  have hcheck := g.checkEntities_settles d.targets
  have hfilter : sources.filter Endpoint.isCore = sources :=
    List.filter_eq_self.2 fun e he => (hcores e he).1
  have hcores' : g.cores d.source = .ok sources := by
    rw [cores, hsources]
    exact congrArg Except.ok hfilter
  rw [route]
  cases htargets : g.checkEntities d.targets with
  | error e =>
      rw [htargets] at hcheck
      refine ⟨e, rfl, iff_of_false ?_ (by simp)⟩
      rintro ⟨c, rfl⟩
      cases hcheck
  | ok =>
      obtain ⟨all, hall⟩ := checkEntities_eq_ok.1 htargets
      rw [hcores']
      cases sources with
      | nil => exact ⟨_, rfl, iff_of_false (by simp) (by simp)⟩
      | cons first rest =>
          obtain ⟨e, herror, hiff⟩ :=
            routeSource_off (hcores first (List.mem_cons_self ..)).2 hall hoff radius d.partition
          refine ⟨e, ?_, hiff.trans (by simp)⟩
          show g.routeSources f radius d _ d.partition (first :: rest) = .error e
          rw [routeSources, herror]
          rfl

end EntityGraph

end Multicast
