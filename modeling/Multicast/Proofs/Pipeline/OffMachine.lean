import Multicast.Proofs.Cost.Agreement
import Multicast.Proofs.Geometry.Words
import Multicast.Proofs.Pipeline.Cheapest
import Multicast.Proofs.Pipeline.Compose
import Multicast.Proofs.Pipeline.Demands

/-!
# `Multicast.Proofs.Pipeline.OffMachine`: what is told about endpoints off the machine

Both routers of nets look for a chip off the grid before they do anything else, and no later step
of either ends with the error about one. So the error of a net is about its first such chip
(`Fabric.routeNet_offMachine`, `CostRouter.netTree_offMachine`), and a run ends with it just if
the routing of a net does (`Run.nearest_offMachine`, `Run.cheapest_offMachine`).

Demands are not looked at in this way. What is told about their endpoints comes from the paths that
lead to them (`Proofs.Entity.Halts`), and it is never about the endpoint: on a torus nothing is
told, and on a mesh it is about the chip of the mesh that a path leads off from.
`Machine.offMachine_told` puts the two side by side.

What is said of routers that follow vectors, which are all but the one over cheapest paths, is said
of machines with sides below `2 ^ 31`. Between chips of such a machine words of 32 bits hold every
vector (`Grid.IsNarrow.fitsWords`). The vector to a chip off a mesh is held as well as long as its
coordinates differ by less than `2 ^ 31`; cut down it leads off the mesh all the same, perhaps from
another chip. On a wider mesh a vector that is cut down leads off it between two chips that are on
it, and the error is told though no endpoint is off the machine.
-/

set_option autoImplicit false

namespace Multicast

open EntityGraph (Refusal)

/-! ### Nets -/

section

variable {f : Fabric} {net : Net} {radius : Nat} {c : Chip}

/-- The chips a net names are those of its source and of its sinks; that they are listed once each
changes nothing. -/
theorem Net.mem_chips : c ∈ net.chips ↔ ∃ e ∈ net.source :: net.sinks, e.chip = c := by
  rw [chips, sinkChips, ← List.mem_map, List.map_cons, List.mem_cons, List.mem_cons, mem_distinct]

namespace Fabric

/-- The first chip off the grid is the chip of an endpoint. -/
theorem endpoint_of_firstOff? (h : f.firstOff? net.chips = some c) :
    f.contains c = false ∧ ∃ e ∈ net.source :: net.sinks, e.chip = c := by
  have hoff := List.find?_some h
  exact ⟨by simpa using hoff, Net.mem_chips.1 (List.mem_of_find?_eq_some h)⟩

/-- If an endpoint lies off the grid, some chip is found to be the first. -/
theorem exists_firstOff? (h : ∃ e ∈ net.source :: net.sinks, f.contains e.chip = false) :
    ∃ c, f.firstOff? net.chips = some c := by
  obtain ⟨e, he, hoff⟩ := h
  rw [← Option.ne_none_iff_exists', ne_eq, firstOff?_eq_none]
  intro hon
  rw [hon _ (Net.mem_chips.2 ⟨e, he, rfl⟩)] at hoff
  contradiction

/-- A net on the grid gets its tree, unless it is refused. -/
theorem routeNet_settles (hon : ∀ c ∈ net.chips, f.contains c = true) (radius : Nat) :
    Settles Refusal (fun _ => True) (f.routeNet net radius) := by
  cases hlive : f.isChip net.source.chip with
  | false =>
      have hnone : f.firstOff? (net.source.chip :: net.sinkChips) = none :=
        firstOff?_eq_none.2 hon
      rw [routeNet, spreadNet, spread, hnone]
      simp only [hlive]
      exact .deadRoot net.source.chip
  | true =>
      obtain ⟨g, hg, hgrown⟩ := spreadNet_spec hon hlive radius
      rw [routeNet, hg]
      exact (repair_settles hgrown.sound.isProper).bind fun _ _ _ => trivial

/-- The error about a chip off the grid is told about the first such chip of a net, and only
then. -/
theorem routeNet_offMachine :
    f.routeNet net radius = .error (.offMachine c) ↔ f.firstOff? net.chips = some c := by
  cases hoff : f.firstOff? net.chips with
  | some b =>
      have hchips : f.firstOff? (net.source.chip :: net.sinkChips) = some b := hoff
      have herror : f.routeNet net radius = .error (.offMachine b) := by
        rw [routeNet, spreadNet, spread, hchips]
        rfl
      rw [herror, Except.error.injEq, RouteError.offMachine.injEq, Option.some.injEq]
  | none =>
      have hsettles := routeNet_settles (firstOff?_eq_none.1 hoff) radius
      refine iff_of_false (fun herror => ?_) (by simp)
      rw [herror] at hsettles
      cases hsettles

end Fabric

end

/-! ### Nets over cheapest paths -/

/-- Endpoints fail to be hung up for one reason, a chip that is not in the tree, and that is told as
a missing path. -/
theorem Growth.addTerminals_error {g : Growth} {start : Chip} {endpoints : List Endpoint}
    {error : RouteError} (h : g.addTerminals start endpoints = .error error) :
    ∃ c, error = .noLivePath start c := by
  induction endpoints generalizing g with
  | nil => contradiction
  | cons e rest ih =>
      rcases bind_eq_error.1 h with h | ⟨next, -, h⟩
      · unfold addTerminal at h
        split at h
        · exact ⟨e.chip, (Except.error.inj h).symm⟩
        · contradiction
      · exact ih h

namespace CostRouter

variable {ν : Type} [Quantity ν] {r : CostRouter ν} {costs : Std.ExtTreeMap Chip ν} {net : Net}
  {source c : Chip} {destinations : List Chip} {error : RouteError}

/-- The errors that may end a net over cheapest paths with all chips on the grid. -/
inductive Failure : RouteError → Prop
  | deadRoot (c : Chip) : Failure (.deadRoot c)
  | noLivePath (a b : Chip) : Failure (.noLivePath a b)
  | unexplainedCost (a b : Chip) : Failure (.unexplainedCost a b)
  | revisited (c : Chip) : Failure (.revisited c)

omit [Quantity ν] in
/-- Costs that are not complete are told as a missing path to one of the destinations. -/
theorem outcome_error {s : Relaxation ν} (h : outcome source s = .error error) :
    Failure error := by
  unfold outcome at h
  split at h
  · contradiction
  · rw [← Except.error.inj h]
    exact .noLivePath _ _

/-- The relaxation fails only in its outcome. -/
theorem relaxFrom_error {bound : Nat} {s : Relaxation ν}
    (h : r.relaxFrom source bound s = .error error) : Failure error := by
  induction bound generalizing s with
  | zero => exact outcome_error h
  | succ bound ih =>
      obtain ⟨offers, settled, remaining, queue⟩ := s
      rw [relaxFrom] at h
      split at h
      · contradiction
      · split at h
        · exact outcome_error h
        · split at h
          · exact ih h
          · exact ih h

/-- A step back fails when no neighbour explains the cost. -/
theorem backStep_error (h : r.backStep costs source c = .error error) : Failure error := by
  unfold backStep at h
  split at h
  · rw [← Except.error.inj h]
    exact .unexplainedCost c source
  · split at h
    · rw [← Except.error.inj h]
      exact .unexplainedCost c source
    · split at h
      · rw [← Except.error.inj h]
        exact .unexplainedCost c source
      · contradiction

/-- To walk back fails where one of its steps does, or where the steps run out. By induction on the
steps allowed. -/
theorem retraceFrom_error {bound : Nat} {found : List Hop}
    (h : r.retraceFrom costs source bound c found = .error error) : Failure error := by
  induction bound generalizing c found with
  | zero =>
      rw [retraceFrom] at h
      split at h
      · contradiction
      · rw [← Except.error.inj h]
        exact .unexplainedCost c source
  | succ bound ih =>
      rw [retraceFrom] at h
      split at h
      · contradiction
      · cases hstep : r.backStep costs source c with
        | error e =>
            rw [hstep] at h
            rw [← Except.error.inj h]
            exact backStep_error hstep
        | ok step =>
            rw [hstep] at h
            exact ih h

/-- To walk back from several destinations fails where one of them does. -/
theorem retraceAll_error (h : r.retraceAll costs source destinations = .error error) :
    Failure error := by
  induction destinations with
  | nil => contradiction
  | cons c rest ih =>
      rcases bind_eq_error.1 h with h | ⟨hops, -, h⟩
      · exact retraceFrom_error h
      · rcases bind_eq_error.1 h with h | ⟨paths, -, h⟩
        · exact ih h
        · contradiction

/-- To find paths fails at a dead source, in the relaxation or on the way back. None of these looks
at the grid for chips off it. -/
theorem paths_error (h : r.paths source destinations = .error error) : Failure error := by
  unfold paths at h
  split at h
  · rcases bind_eq_error.1 h with h | ⟨costs, -, h⟩
    · exact relaxFrom_error h
    · rcases bind_eq_error.1 h with h | ⟨paths, -, h⟩
      · exact retraceAll_error h
      · contradiction
  · rw [← Except.error.inj h]
    exact .deadRoot source

/-- A net with all chips on the grid fails for something else. -/
theorem netTree_error (hon : r.machine.firstOff? net.chips = none)
    (h : r.netTree net = .error error) : Failure error := by
  rw [netTree, hon] at h
  rcases bind_eq_error.1 h with h | ⟨paths, -, h⟩
  · exact paths_error h
  · rcases bind_eq_error.1 h with h | ⟨tree, -, h⟩
    · obtain ⟨x, -, rfl⟩ := CostPaths.toTree_error h
      exact .revisited x.hop.chip
    · rcases bind_eq_error.1 h with h | ⟨grown, -, h⟩
      · obtain ⟨c, rfl⟩ := Growth.addTerminals_error h
        exact .noLivePath _ c
      · contradiction

/-- So a net over cheapest paths is off the machine exactly when its chips are checked to be, and
the chip told is the first of them. -/
theorem netTree_offMachine :
    r.netTree net = .error (.offMachine c) ↔ r.machine.firstOff? net.chips = some c := by
  cases hoff : r.machine.firstOff? net.chips with
  | some b =>
      rw [netTree, hoff]
      rw [Except.error.injEq, RouteError.offMachine.injEq, Option.some.injEq]
  | none =>
      refine iff_of_false (fun herror => ?_) (by simp)
      cases netTree_error hoff herror

end CostRouter

/-! ### Runs -/

/-- Rows fail to be put into tables for one reason, two entries of one slot that differ in their
ways out. -/
theorem Tables.addRows_error {t : Tables} {rows : List Row} {error : RouteError}
    (h : t.addRows rows = .error error) : ∃ c p, error = .conflict c p := by
  rcases addRows_spec t rows with ⟨t', hok, -⟩ | ⟨slot, herror, -⟩
  · rw [hok] at h
    contradiction
  · exact ⟨slot.chip, slot.partition, Except.error.inj (h.symm.trans herror)⟩

namespace Run

variable {ν : Type} {f : Fabric} {g : EntityGraph} {o : Options ν} {r : Run} {s : Stopped}
  {nets : List Net} {demands : List Demand} {c : Chip}

/-- Nothing but a conflict ends the recording of a net. -/
theorem record_error {n : RoutedNet} (h : r.record n = .error s) :
    ∃ c p, s.error = .conflict c p := by
  have hresult := result_record (fun _ => 0) r n
  rw [h] at hresult
  exact Tables.addRows_error hresult.symm

/-- Nothing but a conflict ends the recording of several nets. -/
theorem recordAll_error {routed : List RoutedNet} (h : r.recordAll routed = .error s) :
    ∃ c p, s.error = .conflict c p := by
  have hresult := result_recordAll (fun _ => 0) r routed
  rw [h] at hresult
  exact Tables.addRows_error hresult.symm

/-- A finished run fails with the error it was stopped by. -/
theorem finish_eq_error {capacity : Chip → Nat} {x : Except Stopped Run} {error : RouteError} :
    (finish capacity x).result = .error error ↔ ∃ s, x = .error s ∧ s.error = error := by
  cases x <;> simp [finish]

/-- A run ends with the error about a chip off the grid only if a net has one. By induction on the
nets. The check for cancellation and the recording have errors of their own, so this one comes from
the tree of some net, and `Fabric.routeNet_offMachine` says which chip it names. -/
theorem nearest_offMachine (h : nearest f o r nets = .error s) (hs : s.error = .offMachine c) :
    ∃ net ∈ nets, f.firstOff? net.chips = some c := by
  induction nets generalizing r with
  | nil => contradiction
  | cons net rest ih =>
      rcases bind_eq_error.1 h with hstop | ⟨_, -, h⟩
      · have hcancelled := Options.checkCancelled_error (error_of_attempt hstop)
        rw [hs] at hcancelled
        contradiction
      · rcases bind_eq_error.1 h with hstop | ⟨n, -, h⟩
        · have herror := error_of_attempt hstop
          rw [hs] at herror
          exact ⟨net, List.mem_cons_self .., Fabric.routeNet_offMachine.1 herror⟩
        · rcases bind_eq_error.1 h with hstop | ⟨next, -, h⟩
          · obtain ⟨b, p, hconflict⟩ := record_error hstop
            rw [hs] at hconflict
            contradiction
          · obtain ⟨net', hnet', hoff⟩ := ih h
            exact ⟨net', List.mem_cons_of_mem _ hnet', hoff⟩

/-- The same of a run over cheapest paths. The router changes from net to net as trees are
committed, its machine does not, and the check of the chips looks at the machine only. -/
theorem cheapest_offMachine [Quantity ν] {m : Machine ν} {router : CostRouter ν}
    (hmachine : router.machine = m) (h : cheapest o router r nets = .error s)
    (hs : s.error = .offMachine c) : ∃ net ∈ nets, m.firstOff? net.chips = some c := by
  induction nets generalizing r router with
  | nil => contradiction
  | cons net rest ih =>
      rcases bind_eq_error.1 h with hstop | ⟨_, -, h⟩
      · have hcancelled := Options.checkCancelled_error (error_of_attempt hstop)
        rw [hs] at hcancelled
        contradiction
      · rcases bind_eq_error.1 h with hstop | ⟨⟨tree, used⟩, hrouted, h⟩
        · have herror := error_of_attempt hstop
          rw [hs] at herror
          rcases bind_eq_error.1 herror with herror | ⟨_, -, herror⟩
          · refine ⟨net, List.mem_cons_self .., ?_⟩
            rw [← hmachine]
            exact CostRouter.netTree_offMachine.1 herror
          · contradiction
        · obtain ⟨-, rfl⟩ := CostRouter.routeNet_eq_ok.1 (attempt_eq_ok.1 hrouted)
          rcases bind_eq_error.1 h with hstop | ⟨next, -, h⟩
          · obtain ⟨b, p, hconflict⟩ := record_error hstop
            rw [hs] at hconflict
            contradiction
          · obtain ⟨net', hnet', hoff⟩ := ih ((router.commit_machine tree).trans hmachine) h
            exact ⟨net', List.mem_cons_of_mem _ hnet', hoff⟩

/-- A run over demands ends with such an error only if one of them is refused with it. -/
theorem demands_offMachine (h : Run.demands f g o r demands = .error s)
    (hs : s.error = .offMachine c) :
    ∃ d ∈ demands, g.route f o.radius d = .error (.offMachine c) := by
  induction demands generalizing r with
  | nil => contradiction
  | cons d rest ih =>
      rcases demands_cons_eq_error h with hstop | hstop | ⟨nets, -, hstop | ⟨next, -, h⟩⟩
      · have hcancelled := Options.checkCancelled_error hstop
        rw [hs] at hcancelled
        contradiction
      · rw [hs] at hstop
        exact ⟨d, List.mem_cons_self .., hstop⟩
      · obtain ⟨b, p, hconflict⟩ := recordAll_error hstop
        rw [hs] at hconflict
        contradiction
      · obtain ⟨d', hd', hroute⟩ := ih h
        exact ⟨d', List.mem_cons_of_mem _ hd', hroute⟩

end Run

namespace Machine

variable {ν : Type} [Quantity ν] {m : Machine ν} {o : Options ν}

/-- A run that is not called off ends at its first net when that has a chip off the grid. With
either router the chips of a net are checked before anything is routed. Coefficients that are
refused would end a run over cheapest paths before its first net, which is why they have to pass
here. -/
theorem routeNets_off {net : Net} {c : Chip} (hgo : o.cancelled = false)
    (hweights : o.algorithm = .cheapest → o.weights.fault? = none)
    (hoff : m.firstOff? net.chips = some c) (rest : List Net) :
    (m.routeNets (net :: rest) o).result = .error (.offMachine c) := by
  have hcheck : o.checkCancelled = .ok () := by simp [Options.checkCancelled, hgo]
  rw [routeNets]
  cases halgorithm : o.algorithm with
  | nearest =>
      have hnet : m.toFabric.routeNet net o.radius = .error (.offMachine c) :=
        Fabric.routeNet_offMachine.2 hoff
      simp only [Run.nearest, hcheck, hnet]
      rfl
  | cheapest =>
      obtain ⟨router, hrouter⟩ : ∃ router, CostRouter.create m o.weights = .ok router :=
        ⟨_, CostRouter.create_eq_ok.2 ⟨hweights halgorithm, rfl⟩⟩
      rw [← CostRouter.machine_of_create hrouter] at hoff
      have hnet : router.routeNet net = .error (.offMachine c) := by
        rw [CostRouter.routeNet, CostRouter.netTree_offMachine.2 hoff]
        rfl
      have hrun : Run.cheapest o router .start (net :: rest) = .error ⟨.offMachine c, .empty⟩ := by
        rw [Run.cheapest, hcheck, hnet]
        rfl
      simp only [hrouter]
      exact congrArg (fun x => (Run.finish m.entries x).result) hrun

/-- A run of nets ends with the error about a chip off the grid only if a net has one. -/
theorem exists_off_of_routeNets {nets : List Net} {c : Chip}
    (h : (m.routeNets nets o).result = .error (.offMachine c)) :
    ∃ net ∈ nets, m.firstOff? net.chips = some c := by
  rw [routeNets] at h
  obtain ⟨s, hs, herror⟩ := Run.finish_eq_error.1 h
  split at hs
  · exact Run.nearest_offMachine hs herror
  · rcases bind_eq_error.1 hs with hstop | ⟨router, hrouter, hs⟩
    · -- Coefficients that are refused are another error.
      have hcreate := Run.error_of_attempt hstop
      rw [CostRouter.create, herror] at hcreate
      split at hcreate
      · cases hcreate
      · contradiction
    · have hmachine := CostRouter.machine_of_create (Run.attempt_eq_ok.1 hrouter)
      exact Run.cheapest_offMachine hmachine hs herror

/-- The error about a chip off the machine. When it ends the routing of nets, over cheapest paths or on
a machine with sides below `2 ^ 31`, the chip is off the machine and the chip of an endpoint; and a
first net with an endpoint off the machine ends in it. On a machine with such sides words of 32 bits
hold the vectors. When the error ends the routing of demands there, the chip is on the machine; the
machine is a mesh then, and some target has an endpoint off it. A first demand with such a target,
from cores on working chips, ends in an error, and in this one just if the machine is a mesh, there
is a core, all targets exist and the first corridor that is missing, if one is, is missing for such
a chip. -/
theorem offMachine_told (m : Machine ν) (o : Options ν) :
    (o.algorithm = .cheapest ∨ m.IsNarrow → ∀ nets c,
      (m.routeNets nets o).result = .error (.offMachine c) →
      m.contains c = false ∧ ∃ net ∈ nets, ∃ e ∈ net.source :: net.sinks, e.chip = c) ∧
    (o.cancelled = false → (o.algorithm = .cheapest → o.weights.fault? = none) →
      ∀ net rest, (∃ e ∈ net.source :: net.sinks, m.contains e.chip = false) →
      ∃ c, (m.routeNets (net :: rest) o).result = .error (.offMachine c)) ∧
    (m.IsNarrow → m.FitsWords) ∧
    (m.IsNarrow → ∀ g demands c, (m.routeDemands g demands o).result = .error (.offMachine c) →
      m.contains c = true ∧ m.wraps = false ∧
        ∃ d ∈ demands, ∃ target ∈ d.targets, g.Strays m.toFabric target) ∧
    (m.IsNarrow → o.cancelled = false →
      ∀ (g : EntityGraph) d rest sources, g.endpoints d.source = .ok sources →
      (∀ e ∈ sources, e.isCore = true ∧ m.isChip e.chip = true) →
      (∃ target ∈ d.targets, g.Strays m.toFabric target) →
      ∃ error, (m.routeDemands g (d :: rest) o).result = .error error ∧
        ((∃ c, error = .offMachine c) ↔ m.wraps = false ∧ sources ≠ [] ∧
          g.checkEntities d.targets = .ok () ∧
          ∀ e, g.missing? m.toFabric d.source d.targets = some e → ∃ c, e = .offMachine c)) := by
  refine ⟨?_, ?_, Grid.IsNarrow.fitsWords, ?_, ?_⟩
  · intro _ nets c h
    obtain ⟨net, hnet, hoff⟩ := exists_off_of_routeNets h
    obtain ⟨hc, hendpoint⟩ := Fabric.endpoint_of_firstOff? hoff
    exact ⟨hc, net, hnet, hendpoint⟩
  · intro hgo hweights net rest hoff
    obtain ⟨c, hc⟩ := Fabric.exists_firstOff? hoff
    exact ⟨c, routeNets_off hgo hweights hc rest⟩
  · intro _ g demands c h
    obtain ⟨s, hs, herror⟩ := Run.finish_eq_error.1 h
    obtain ⟨d, hd, hroute⟩ := Run.demands_offMachine hs herror
    have hhalts := EntityGraph.route_halts g m.toFabric o.radius d
    rw [hroute] at hhalts
    obtain ⟨hc, hmesh, hstrays⟩ := EntityGraph.Halt.offMachine hhalts
    exact ⟨hc, hmesh, d, hd, hstrays⟩
  · intro _ hgo g d rest sources hsources hcores hstrays
    have hcheck : o.checkCancelled = .ok () := by simp [Options.checkCancelled, hgo]
    obtain ⟨error, hroute, hiff⟩ := EntityGraph.route_off hsources hcores hstrays o.radius
    refine ⟨error, ?_, hiff⟩
    rw [routeDemands, Run.demands, hcheck, hroute]
    rfl

/-- Two chips next to each other. -/
def couple : Machine Float :=
  .standard (.intact { width := 2, height := 1, wraps := false })

/-- A square torus. -/
def square : Machine Float :=
  .standard (.intact { width := 4, height := 4, wraps := true })

/-- An entity on the first chip and one that is off either machine. -/
def strayGraph : EntityGraph :=
  ⟨[[.core ⟨0, 0⟩ 1], [.core ⟨5, 0⟩ 1]]⟩

def strayDemand : Demand :=
  { partition := ⟨0⟩, source := 0, targets := [1] }

def strayNet : Net :=
  { partition := ⟨0⟩, source := .core ⟨0, 0⟩ 1, sinks := [.core ⟨1, 0⟩ 1, .core ⟨5, 0⟩ 1] }

/-- On the mesh both the net and the demand end with an error about a chip off the machine, one of
them about a chip that is not on it, the other about one that is. On the torus the demand ends with
another error. -/
theorem stray_told :
    (∃ c, (couple.routeNets [strayNet] .standard).result = .error (.offMachine c) ∧
      couple.contains c = false) ∧
    (∃ c, (couple.routeDemands strayGraph [strayDemand] .standard).result =
      .error (.offMachine c) ∧ couple.contains c = true) ∧
    ∃ error, (square.routeDemands strayGraph [strayDemand] .standard).result = .error error ∧
      ∀ c, error ≠ .offMachine c := by
  obtain ⟨htrue, hnet, -, hon, hdemand⟩ := offMachine_told couple .standard
  obtain ⟨-, -, -, -, htorus⟩ := offMachine_told square .standard
  have hcouple : couple.IsNarrow := by decide
  have hsquare : square.IsNarrow := by decide
  have hsources : strayGraph.endpoints strayDemand.source = .ok [.core ⟨0, 0⟩ 1] := rfl
  have hendpoints : strayGraph.endpoints 1 = .ok [.core ⟨5, 0⟩ 1] := rfl
  refine ⟨?_, ?_, ?_⟩
  · obtain ⟨c, hc⟩ := hnet rfl (fun h => by cases h) strayNet []
      ⟨.core ⟨5, 0⟩ 1, by decide, by decide⟩
    exact ⟨c, hc, (htrue (.inr hcouple) _ c hc).1⟩
  · obtain ⟨error, herror, hiff⟩ := hdemand hcouple rfl strayGraph strayDemand [] _ hsources
      (by decide +kernel) ⟨1, by decide, _, hendpoints, .core ⟨5, 0⟩ 1, by decide, by decide⟩
    have hmissing : strayGraph.missing? couple.toFabric strayDemand.source strayDemand.targets =
        some (.offMachine ⟨1, 0⟩) := by decide +kernel
    obtain ⟨c, rfl⟩ := hiff.2 ⟨rfl, by decide, rfl, fun e he =>
      ⟨⟨1, 0⟩, (Option.some.inj (hmissing.symm.trans he)).symm⟩⟩
    exact ⟨c, herror, (hon hcouple strayGraph [strayDemand] c herror).1⟩
  · obtain ⟨error, herror, hiff⟩ := htorus hsquare rfl strayGraph strayDemand [] _ hsources
      (by decide +kernel) ⟨1, by decide, _, hendpoints, .core ⟨5, 0⟩ 1, by decide, by decide⟩
    refine ⟨error, herror, fun c hc => ?_⟩
    obtain ⟨hmesh, -⟩ := hiff.1 ⟨c, hc⟩
    contradiction

/-- The chip that the demand's error is about on the mesh is on it and has no endpoint, and on the
torus the endpoint off it is not told. -/
theorem stray_misled :
    (couple.routeDemands strayGraph [strayDemand] .standard).result =
      .error (.offMachine ⟨1, 0⟩) ∧
    couple.contains ⟨1, 0⟩ = true ∧
    (∀ endpoints ∈ strayGraph.entities, ∀ e ∈ endpoints, e.chip ≠ ⟨1, 0⟩) ∧
    (square.routeDemands strayGraph [strayDemand] .standard).result =
      .error (.noLivePath ⟨0, 0⟩ ⟨5, 0⟩) ∧
    square.contains ⟨5, 0⟩ = false := by
  refine ⟨by decide +kernel, by decide, by decide, by decide +kernel, by decide⟩

end Machine

end Multicast
