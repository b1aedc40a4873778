import Multicast.Config.Reader
import Multicast.Pipeline.Route
import Multicast.Proofs.Machine.Kills

/-!
# `Multicast.Proofs.Config.Usable`: what accepted settings are good for

Settings are checked when they are read, and once more where they are used: the machine is built
from one part of them, and a router takes the coefficients of link costs from another.

Both checks of the machine ask for the same of every override: that its chip lies on the grid and
its link has a number (`Fabric.killLinks_eq_ok`, `Settings.checkLinks_eq_ok`). So a machine can be
built from all settings that are accepted, and what is asked besides concerns its capacities
(`Settings.checkMachine_eq_ok`).

The checks of the coefficients differ. Settings refuse a coefficient that is less than zero, and a
router one that is not at least zero. A float that is not a number is neither, and there is no
other such float (`Quantity.zero_le_float`). So accepted settings are refused later exactly when
one of these coefficients is not a number (`Settings.validate_usable`), and a configuration can
say so (`unordered_refused`).
-/

set_option autoImplicit false

namespace Multicast

/-! ### Floats and zero -/

namespace Quantity

/-- Floats are compared as the numbers they stand for, and one that is not a number is not at most
anything. -/
theorem le_float (x y : Float) :
    Quantity.le x y = x.toModel.unpack.le y.toModel.unpack := by
  show decide (decide (x.toModel.unpack.le y.toModel.unpack = true) = true) = _
  rw [Bool.decide_eq_true, Bool.decide_eq_true]

/-- Less than is decided in the same way, and is false as well for what is not a number. -/
theorem lt_float (x y : Float) :
    Quantity.lt x y = x.toModel.unpack.lt y.toModel.unpack := by
  show decide (decide (x.toModel.unpack.lt y.toModel.unpack = true) = true) = _
  rw [Bool.decide_eq_true, Bool.decide_eq_true]

/-- A float is at least zero unless it is less than zero or not a number. -/
theorem zero_le_float (x : Float) :
    Quantity.le zero x = (!x.isNaN && !Quantity.lt x zero) := by
  have hzero : (zero : Float).toModel.unpack = .zero .positive := rfl
  rw [le_float, lt_float, hzero]
  show _ = (!x.toModel.unpack.isNaN && _)
  -- Against zero only the kind and the sign of a float count.
  generalize x.toModel.unpack = u
  cases u with
  | infinity s => cases s <;> rfl
  | notANumber => rfl
  | zero s => rfl
  | finite s m e h => cases s <;> rfl

end Quantity

/-! ### Building a machine -/

/-- The links have the numbers up to five. -/
theorem Direction.exists_ofLinkId? {n : Nat} : (∃ d, ofLinkId? n = some d) ↔ n ≤ 5 := by
  rw [← Option.isSome_iff_exists, ofLinkId?, isSome_getElem?]
  show n < 6 ↔ n ≤ 5
  omega

namespace Fabric

variable {f f' : Fabric} {chips : List Chip} {links : List DownLink}

/-- Ending chips changes the sides of no grid, so a check against the grid can be made before or
after it. -/
theorem toGrid_killChips (h : f.killChips chips = .ok f') : f'.toGrid = f.toGrid := by
  induction chips generalizing f with
  | nil => rw [← Except.ok.inj h]
  | cons c rest ih =>
      rw [killChips] at h
      split at h
      · have hrest := ih h
        exact hrest
      · contradiction

/-- Chips can be killed exactly when all of them lie on the grid. -/
theorem killChips_eq_ok :
    (∃ f', f.killChips chips = .ok f') ↔ ∀ c ∈ chips, f.contains c = true := by
  induction chips generalizing f with
  | nil => simp [killChips]
  | cons c rest ih =>
      rw [killChips, List.forall_mem_cons]
      split
      · next hc =>
        rw [ih]
        exact (and_iff_right hc).symm
      · next hc => simp [hc]

/-- Links can be killed exactly when all of them have a chip on the grid and a number. By induction
on the list: a kill does not change the grid, so whether the next link can be killed does not depend
on those before it. -/
theorem killLinks_eq_ok : (∃ f', f.killLinks links = .ok f') ↔
    ∀ l ∈ links, f.contains l.chip = true ∧ l.link ≤ 5 := by
  induction links generalizing f with
  | nil => simp [killLinks]
  | cons l rest ih =>
      rw [killLinks, List.forall_mem_cons]
      split
      · next hc =>
        split
        · next d hd =>
          have hsmall : l.link ≤ 5 := Direction.exists_ofLinkId?.1 ⟨d, hd⟩
          have hgrid : (f.killLink l.chip d).toGrid = f.toGrid := toGrid_kill f (.link l.chip d)
          rw [ih, hgrid]
          exact (and_iff_right ⟨hc, hsmall⟩).symm
        · next hd =>
          have hlarge : ¬ l.link ≤ 5 := by
            rw [← Direction.exists_ofLinkId?, hd]
            simp
          simp [hlarge]
      · next hc => simp [hc]

end Fabric

/-! ### Accepting settings -/

/-- Two checks are passed when each of them is. -/
theorem checks_eq_ok {ε : Type} {first : Except ε Unit} {second : Except ε Unit} :
    (do first; second) = .ok () ↔ first = .ok () ∧ second = .ok () := by
  rw [bind_eq_ok]
  constructor
  · intro h
    obtain ⟨_, hfirst, hsecond⟩ := h
    exact ⟨hfirst, hsecond⟩
  · intro h
    exact ⟨(), h⟩

namespace Settings

variable {ν : Type}

/-- The settings pass when every dead chip they list lies on the machine. -/
theorem checkChips_eq_ok {m : MachineSettings ν} {chips : List Chip} :
    checkChips m chips = .ok () ↔ ∀ c ∈ chips, covers m c = true := by
  induction chips with
  | nil => simp [checkChips]
  | cons c rest ih =>
      rw [checkChips, List.forall_mem_cons]
      split
      · next hc =>
        rw [ih]
        exact (and_iff_right hc).symm
      · next hc => simp [hc]

/-- The settings pass when every dead link they list starts on the machine and has one of the six
numbers. The check of the settings and the building of the machine ask the same of a link, each in
its own order; both come down to this. -/
theorem checkLinks_eq_ok {m : MachineSettings ν} {links : List DownLink} :
    checkLinks m links = .ok () ↔ ∀ l ∈ links, covers m l.chip = true ∧ l.link ≤ 5 := by
  induction links with
  | nil => simp [checkLinks]
  | cons l rest ih =>
      rw [checkLinks, List.forall_mem_cons]
      split
      · next hc =>
        rw [Bool.not_eq_true'] at hc
        simp [hc]
      · next hc =>
        rw [Bool.not_eq_true', Bool.not_eq_false] at hc
        split
        · next hlarge =>
          have hnot : ¬ l.link ≤ 5 := by omega
          simp [hnot]
        · next hsmall =>
          rw [ih]
          exact (and_iff_right ⟨hc, by omega⟩).symm

/-- A machine can be built from a description exactly when it has a chip, and its overrides lie on
it and have link numbers. The three checks of the building are met in their order: the sides first,
then all chips, then all links. -/
theorem ofSettings_eq_ok {m : MachineSettings ν} :
    (∃ machine, Machine.ofSettings m = .ok machine) ↔ ¬ (m.width = 0 ∨ m.height = 0) ∧
      checkChips m m.downChips = .ok () ∧ checkLinks m m.downLinks = .ok () := by
  rw [checkChips_eq_ok, checkLinks_eq_ok, Machine.ofSettings]
  split
  · next hempty => simp [hempty]
  · next hsides =>
    rw [and_iff_right hsides]
    constructor
    · intro h
      obtain ⟨machine, h⟩ := h
      obtain ⟨withChips, hchips, h⟩ := bind_eq_ok.1 h
      obtain ⟨withLinks, hlinks, -⟩ := bind_eq_ok.1 h
      have hcovered := Fabric.killLinks_eq_ok.1 ⟨withLinks, hlinks⟩
      rw [Fabric.toGrid_killChips hchips] at hcovered
      exact ⟨Fabric.killChips_eq_ok.1 ⟨withChips, hchips⟩, hcovered⟩
    · intro h
      obtain ⟨withChips, hchips⟩ := Fabric.killChips_eq_ok
        (f := .intact { width := m.width, height := m.height, wraps := m.wraps }).2 h.1
      have hcovered := h.2
      obtain ⟨withLinks, hlinks⟩ := Fabric.killLinks_eq_ok (f := withChips).2 (by
        rw [Fabric.toGrid_killChips hchips]
        exact hcovered)
      exact ⟨_, bind_eq_ok.2 ⟨withChips, hchips, bind_eq_ok.2 ⟨withLinks, hlinks, rfl⟩⟩⟩

variable [Quantity ν]

/-- A description is accepted exactly when a machine can be built from it and has capacities. What
the check asks beyond building the machine are an entry in every table and some bandwidth on every
link. -/
theorem checkMachine_eq_ok {m : MachineSettings ν} : checkMachine m = .ok () ↔
    (∃ machine, Machine.ofSettings m = .ok machine) ∧ 0 < m.routerEntries ∧
      Quantity.lt Quantity.zero m.linkBandwidth = true := by
  rw [ofSettings_eq_ok, checkMachine]
  split
  · next hempty => simp [hempty]
  · next hsides =>
    rw [and_iff_right hsides, checks_eq_ok, checks_eq_ok, and_assoc]
    refine and_congr_right fun _ => and_congr_right fun _ => ?_
    split
    · next hentries => simp [hentries]
    · next hentries =>
      rw [and_iff_right (by omega)]
      split
      · next hbandwidth => simp_all
      · next hbandwidth => simpa using hbandwidth

/-- Accepted settings describe a machine that can be built, and their coefficients are refused for
nothing but being less than zero. The comparisons are kept as they are made, since for a number that
is not one the opposite of a comparison says something else. -/
theorem validate_eq_ok {s : Settings ν} : s.validate = .ok () ↔
    checkMachine s.machine = .ok () ∧ s.radius ≤ largestRadius ∧
      Quantity.lt Quantity.zero s.weights.k = true ∧
      Quantity.lt s.weights.l Quantity.zero = false ∧
      Quantity.lt s.weights.m Quantity.zero = false ∧
      Quantity.lt s.weights.perRoute Quantity.zero = false := by
  rw [validate, checks_eq_ok]
  refine and_congr_right fun _ => ?_
  split
  · next hlarge =>
    have hnot : ¬ s.radius ≤ largestRadius := by omega
    simp [hnot]
  · next hsmall =>
    rw [and_iff_right (by omega), checkWeights]
    split
    · next hk => simp_all
    · next hk =>
      rw [Bool.not_eq_true', Bool.not_eq_false] at hk
      rw [and_iff_right hk, ← and_assoc, ← Bool.or_eq_false_iff, ← Bool.or_eq_false_iff]
      split
      · next hnegative => simp [hnegative]
      · next hrest => simpa using hrest

/-- A machine can be built from accepted settings. A router refuses their coefficients if one of
those that are not the cost of a hop is no number, and only then. What was accepted compares as it
should or not at all. The loader asks whether a coefficient is below zero, the router whether it is
not at least zero, and the two differ for a coefficient that is not a number. -/
theorem validate_usable (s : Settings Float) (h : s.validate = .ok ()) :
    (∃ m, Machine.ofSettings s.machine = .ok m) ∧
      s.options.weights.fault? =
        if s.weights.l.isNaN || s.weights.m.isNaN || s.weights.perRoute.isNaN then
          some .coefficient
        else none := by
  obtain ⟨hmachine, -, hk, hl, hm, hroute⟩ := validate_eq_ok.1 h
  refine ⟨(checkMachine_eq_ok.1 hmachine).1, ?_⟩
  show s.weights.fault? = _
  simp only [Weights.fault?, Quantity.zero_le_float, hk, hl, hm, hroute, Bool.not_true,
    Bool.not_false, Bool.and_true]
  cases s.weights.l.isNaN <;> cases s.weights.m.isNaN <;> cases s.weights.perRoute.isNaN <;> rfl

/-- Settings for two chips with a dead link between them, where pressure on tables costs without
bound and pressure on links is not a number. -/
def boundless : Settings Float :=
  { machine :=
      { width := 2, height := 1, wraps := false, downChips := [], downLinks := [⟨⟨0, 0⟩, 0⟩]
        routerEntries := 1, linkBandwidth := 1 / 0 }
    algorithm := .cheapest
    radius := largestRadius
    weights := { k := 1, l := 1 / 0, m := 0 / 0, perRoute := 0 } }

/-- They are accepted and refused later for the coefficient that is not a number. Without it
nothing is wrong with them. -/
theorem boundless_usable :
    boundless.validate = .ok () ∧
    (∃ m, Machine.ofSettings boundless.machine = .ok m) ∧
    boundless.options.weights.fault? = some .coefficient ∧
    { boundless.weights with m := 0 }.fault? = none := by
  have haccepted : boundless.validate = .ok () := by
    obtain ⟨_, h⟩ := exists_of_isOk (x := boundless.validate) (by decide +kernel)
    exact h
  obtain ⟨hmachine, hfault⟩ := validate_usable boundless haccepted
  have hnumbers : (boundless.weights.l.isNaN || boundless.weights.m.isNaN ||
      boundless.weights.perRoute.isNaN) = true := by decide +kernel
  rw [if_pos hnumbers] at hfault
  exact ⟨haccepted, hmachine, hfault, by decide +kernel⟩

end Settings

/-- A configuration that asks for the cost router, with a coefficient that is not a number. -/
def unorderedText : String :=
  "[machine]\nwidth = 2\nheight = 1\n[router]\nalgorithm = \"dijkstra\"\n[dijkstra]\nl = nan\n"

/-- What is read has been accepted. -/
theorem Config.validate_of_read {text : String} {s : Settings Float}
    (h : Config.read text = .ok s) : s.validate = .ok () := by
  rw [Config.read] at h
  split at h
  · contradiction
  · obtain ⟨_, hvalid, h⟩ := bind_eq_ok.1 h
    rw [← Except.ok.inj h]
    exact hvalid

/-- Where the coefficients are refused, no net is routed over cheapest paths. -/
theorem Machine.routeNets_refused {ν : Type} [Quantity ν] {o : Options ν} {fault : WeightFault}
    (hcheapest : o.algorithm = .cheapest) (hfault : o.weights.fault? = some fault)
    (m : Machine ν) (nets : List Net) :
    (m.routeNets nets o).result = .error (.invalidWeights fault) := by
  rw [routeNets, hcheapest]
  show (Run.finish m.entries (Run.start.attempt (CostRouter.create m o.weights) >>= _)).result = _
  rw [CostRouter.create, hfault]
  rfl

/-- The configuration is read and accepted, and then every run with it is refused for its
coefficients. So the configuration is refused one step too late, by a router that was promised
usable settings. -/
theorem unordered_refused : ∃ s m, Config.read unorderedText = .ok s ∧
    s.validate = .ok () ∧ Machine.ofSettings s.machine = .ok m ∧
    ∀ nets, (m.routeNets nets s.options).result = .error (.invalidWeights .coefficient) := by
  have hread : (Config.read unorderedText).toOption.any
      (fun s => s.algorithm == .cheapest && s.weights.fault? == some .coefficient) = true := by
    decide +kernel
  cases hs : Config.read unorderedText with
  | error e =>
      rw [hs] at hread
      contradiction
  | ok s =>
      rw [hs] at hread
      have hboth := Bool.and_eq_true_iff.1 hread
      have haccepted := Config.validate_of_read hs
      obtain ⟨m, hm⟩ := (Settings.checkMachine_eq_ok.1 (Settings.validate_eq_ok.1 haccepted).1).1
      exact ⟨s, m, rfl, haccepted, hm,
        Machine.routeNets_refused (eq_of_beq hboth.1) (eq_of_beq hboth.2) m⟩

end Multicast
