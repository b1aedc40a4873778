import Mathlib.Data.List.Induction
import Mathlib.Data.List.Nodup
import Multicast.Cost.Retrace
import Multicast.Proofs.Machine.Paths

/-!
# `Multicast.Proofs.Cost.Retrace`: what traced-back paths have in common

Whatever the costs are and however they compare, the chip before a chip is a function of the
chip (`before?`). All paths traced back from one record of costs follow that one function
(`paths_spec`), and so there is one path to a chip (`Follows.unique`), no path comes back to a
chip it has passed (`Follows.nodup`), and every hop is over a working link (`Follows.isWalk`).
Nothing here depends on what the costs stand for.
-/

set_option autoImplicit false

namespace Multicast

/-- Hops each of which enters its chip as a record of predecessors says: over the link and from
the chip noted there. -/
def Follows (before : Chip → Option (Direction × Chip)) : Chip → List Hop → Chip → Prop
  | a, [], c => a = c
  | a, hop :: rest, c => before hop.chip = some (hop.link, a) ∧ Follows before hop.chip rest c

namespace Follows

variable {before : Chip → Option (Direction × Chip)} {a b c source : Chip} {d : Direction}
  {hops hops' : List Hop}

/-- Hops that follow a record can be cut anywhere, and both parts follow it. -/
theorem append : Follows before a (hops ++ hops') c ↔
    ∃ b, Follows before a hops b ∧ Follows before b hops' c := by
  induction hops generalizing a with
  | nil => simp [Follows]
  | cons hop rest ih => simp only [List.cons_append, Follows, ih, and_assoc, exists_and_left]

/-- The last of some hops enters its chip as noted, from the chip that the hops before it lead to. -/
theorem snoc : Follows before a (hops ++ [⟨d, b⟩]) c ↔
    ∃ p, Follows before a hops p ∧ before b = some (d, p) ∧ b = c := by
  rw [append]
  rfl

/-- From a chip without a predecessor there is one way to follow to a chip. By induction on the hops
from the last one. -/
theorem unique (hsource : before source = none) (h : Follows before source hops c)
    (h' : Follows before source hops' c) : hops = hops' := by
  -- Back from the end, where both ways were entered from the same chip over the same link.
  induction hops using List.reverseRecOn generalizing hops' c with
  | nil =>
      obtain rfl : source = c := h
      cases hops' using List.reverseRecOn with
      | nil => rfl
      | append_singleton init hop =>
          obtain ⟨p, -, hp, rfl⟩ := snoc.1 h'
          rw [hsource] at hp
          contradiction
  | append_singleton init hop ih =>
      obtain ⟨p, hinit, hp, rfl⟩ := snoc.1 h
      cases hops' using List.reverseRecOn with
      | nil =>
          obtain rfl : source = hop.chip := h'
          rw [hsource] at hp
          contradiction
      | append_singleton init' hop' =>
          obtain ⟨link, chip⟩ := hop
          obtain ⟨link', chip'⟩ := hop'
          obtain ⟨p', hinit', hp', rfl⟩ := snoc.1 h'
          obtain ⟨rfl, rfl⟩ := Prod.mk.inj (Option.some.inj (hp.symm.trans hp'))
          rw [ih hinit hinit']

/-- No chip is passed twice. By induction on the hops from the last one, with `unique`: a way that
passed its end before would contain a shorter one. -/
theorem nodup (hsource : before source = none) (h : Follows before source hops c) :
    (source :: hops.map (·.chip)).Nodup := by
  induction hops using List.reverseRecOn generalizing c with
  | nil => exact List.nodup_singleton source
  | append_singleton init hop ih =>
      obtain ⟨p, hinit, hp, rfl⟩ := snoc.1 h
      have hnew : hop.chip ∉ source :: init.map (·.chip) := by
        intro hmem
        rcases List.mem_cons.1 hmem with heq | hmem
        · rw [heq, hsource] at hp
          contradiction
        · -- A way that passed the chip before would be a shorter way to it.
          obtain ⟨earlier, hearlier, heq⟩ := List.mem_map.1 hmem
          obtain ⟨u, v, rfl⟩ := List.append_of_mem hearlier
          obtain ⟨b, hu, hb, -⟩ := append.1 hinit
          have hshort : Follows before source (u ++ [earlier]) hop.chip :=
            snoc.2 ⟨b, hu, hb, heq⟩
          have hlength := congrArg List.length (unique hsource hshort h)
          simp only [List.length_append, List.length_cons, List.length_nil] at hlength
          omega
      rw [List.map_append, ← List.cons_append]
      exact (ih hinit).append (List.nodup_singleton _) (List.disjoint_singleton.2 hnew)

/-- If predecessors are noted for working links only, the hops are a walk. -/
theorem isWalk {f : Fabric} (hlinks : ∀ {c d a}, before c = some (d, a) → f.follow? a d = some c)
    (h : Follows before a hops c) : f.IsWalk a hops c := by
  induction hops generalizing a with
  | nil => exact h
  | cons hop rest ih => exact ⟨hlinks h.1, ih h.2⟩

end Follows

namespace CostRouter

variable {ν : Type} [Quantity ν] {r : CostRouter ν} {costs : Std.ExtTreeMap Chip ν}
  {source a c : Chip} {d : Direction} {found hops : List Hop} {p : CostPaths}

/-- The chip before a chip and the link between them, as costs explain it; none for the source. -/
def before? (r : CostRouter ν) (costs : Std.ExtTreeMap Chip ν) (source c : Chip) :
    Option (Direction × Chip) :=
  if c = source then none else (r.backStep costs source c).toOption

/-- Nothing comes before the source, whatever the costs say of it. -/
theorem before?_source (r : CostRouter ν) (costs : Std.ExtTreeMap Chip ν) (source : Chip) :
    r.before? costs source source = none := if_pos rfl

/-- The cost of a chip is, up to the tolerance, that of another with the cost of a working link
from there. -/
structure Explained (r : CostRouter ν) (costs : Std.ExtTreeMap Chip ν) (c : Chip) (cost : ν)
    (d : Direction) (a : Chip) : Prop where
  link : r.machine.follow? a d = some c
  agrees : ∃ before w, costs[a]? = some before ∧ r.linkCost a d c = some w ∧
    Quantity.lt (Quantity.abs (Quantity.sub (Quantity.sub cost w) before)) Quantity.tolerance = true

/-- The neighbours looked at are all those with a working link hither. The neighbour is found by the
opposite link, so that what is looked at and what leads hither are the same chips. -/
theorem explains_eq_some {cost : ν} {x : Direction} :
    r.explains costs c cost x = some (d, a) ↔ x = d ∧ r.Explained costs c cost d a := by
  constructor
  · intro h
    unfold explains at h
    split at h
    · contradiction
    · next neighbour _ =>
      split at h
      · next hfollow =>
        split at h
        · next before w hbefore hw =>
          split at h
          · next hclose =>
            obtain ⟨rfl, rfl⟩ := Prod.mk.inj (Option.some.inj h)
            exact ⟨rfl, eq_of_beq hfollow, before, w, hbefore, hw, hclose⟩
          · contradiction
        · contradiction
      · contradiction
  · rintro ⟨rfl, hlink, before, w, hbefore, hw, hclose⟩
    obtain ⟨ha, -, hstep, -⟩ := Fabric.follow?_eq_some_iff.1 hlink
    have hback := (Grid.step_opposite (Fabric.contains_of_isChip ha) hstep).2
    simp [explains, hback, hlink, hbefore, hw, hclose]

/-- The neighbour taken for the predecessor explains the cost. -/
theorem explained_of_predecessor? {cost : ν} (h : r.predecessor? costs c cost = some (d, a)) :
    r.Explained costs c cost d a := by
  obtain ⟨x, -, hx⟩ := List.exists_of_findSome?_eq_some h
  exact (explains_eq_some.1 hx).2

/-- Where a neighbour explains the cost one is found, though it need not be this one. -/
theorem Explained.exists_predecessor? {cost : ν} (h : r.Explained costs c cost d a) :
    ∃ step, r.predecessor? costs c cost = some step := by
  refine Option.isSome_iff_exists.1 (List.findSome?_isSome_iff.2 ⟨d, d.mem_all, ?_⟩)
  rw [explains_eq_some.2 ⟨rfl, h⟩]
  rfl

/-- A step back is made from a chip with a cost other than zero to the first neighbour that explains
it. -/
theorem backStep_eq_ok : r.backStep costs source c = .ok (d, a) ↔ ∃ cost, costs[c]? = some cost ∧
    Quantity.eq cost Quantity.zero = false ∧ r.predecessor? costs c cost = some (d, a) := by
  unfold backStep
  cases costs[c]? with
  | none => simp
  | some cost =>
      cases hzero : Quantity.eq cost Quantity.zero <;>
        cases hstep : r.predecessor? costs c cost <;> simp [hzero, hstep]

/-- The chip before another one is where a step back leads, and the source has none. -/
theorem before?_eq_some : r.before? costs source c = some (d, a) ↔
    c ≠ source ∧ r.backStep costs source c = .ok (d, a) := by
  unfold before?
  by_cases hc : c = source
  · simp [hc]
  · cases r.backStep costs source c <;> simp [hc, Except.toOption]

/-- The cost of a chip that has another before it is explained by that one. -/
theorem explained_of_before? (h : r.before? costs source c = some (d, a)) :
    ∃ cost, costs[c]? = some cost ∧ r.Explained costs c cost d a := by
  obtain ⟨cost, hcost, -, hstep⟩ := backStep_eq_ok.1 (before?_eq_some.1 h).2
  exact ⟨cost, hcost, explained_of_predecessor? hstep⟩

/-- The link from the chip before works and leads hither. -/
theorem follow?_of_before? (h : r.before? costs source c = some (d, a)) :
    r.machine.follow? a d = some c := by
  obtain ⟨cost, -, hexplained⟩ := explained_of_before? h
  exact hexplained.link

/-- Tracing back puts the hops from the source in front of those found. By induction on the steps
left; the hops found are in front of those found before. -/
theorem retraceFrom_spec {bound : Nat} (h : r.retraceFrom costs source bound c found = .ok hops) :
    ∃ steps, hops = steps ++ found ∧ Follows (r.before? costs source) source steps c := by
  induction bound generalizing c found with
  | zero =>
      rw [retraceFrom] at h
      split at h
      · next hc => exact ⟨[], (Except.ok.inj h).symm, hc.symm⟩
      · contradiction
  | succ bound ih =>
      rw [retraceFrom] at h
      split at h
      · next hc => exact ⟨[], (Except.ok.inj h).symm, hc.symm⟩
      · next hc =>
        cases hstep : r.backStep costs source c with
        | error e =>
            simp only [hstep] at h
            contradiction
        | ok step =>
            obtain ⟨d, a⟩ := step
            simp only [hstep] at h
            -- The hop found last goes in front of those found before it.
            obtain ⟨steps, rfl, hsteps⟩ := ih h
            refine ⟨steps ++ [⟨d, c⟩], by simp, Follows.snoc.2 ⟨a, hsteps, ?_, rfl⟩⟩
            exact before?_eq_some.2 ⟨hc, hstep⟩

/-- One path is traced back for each destination, in their order, and all of them follow the same
record of predecessors: a step back depends on the chip it is made from and not on where the path
leads. -/
theorem retraceAll_spec {destinations : List Chip} {paths : List (Chip × List Hop)}
    (h : r.retraceAll costs source destinations = .ok paths) :
    paths.map (·.1) = destinations ∧
      ∀ path ∈ paths, Follows (r.before? costs source) source path.2 path.1 := by
  induction destinations generalizing paths with
  | nil =>
      obtain rfl := Except.ok.inj h
      exact ⟨rfl, by simp⟩
  | cons c rest ih =>
      obtain ⟨hops, hhops, h⟩ := bind_eq_ok.1 h
      obtain ⟨others, hothers, h⟩ := bind_eq_ok.1 h
      obtain rfl := Except.ok.inj h
      obtain ⟨steps, heq, hsteps⟩ := retraceFrom_spec hhops
      rw [List.append_nil] at heq
      obtain ⟨hrest, hfollows⟩ := ih hothers
      exact ⟨congrArg (c :: ·) hrest, List.forall_mem_cons.2 ⟨heq ▸ hsteps, hfollows⟩⟩

/-- Paths are found when the source works, the costs are found and all destinations can be traced
back. Which costs and paths these are is settled by the relaxation and the retrace. -/
theorem paths_eq_ok {destinations : List Chip} : r.paths source destinations = .ok p ↔
    r.machine.isChip source = true ∧ ∃ costs paths, r.relax source destinations = .ok costs ∧
      r.retraceAll costs source destinations = .ok paths ∧ p = ⟨source, paths⟩ := by
  unfold paths
  split
  · next hsource =>
    simp only [bind_eq_ok, pure, Except.pure, Except.ok.injEq, hsource, true_and]
    constructor
    · rintro ⟨costs, hcosts, paths, hpaths, rfl⟩
      exact ⟨costs, paths, hcosts, hpaths, rfl⟩
    · rintro ⟨costs, paths, hcosts, hpaths, rfl⟩
      exact ⟨costs, hcosts, paths, hpaths, rfl⟩
  · next hdead => simp [hdead]

/-- The paths to destinations follow the predecessors that one record of costs explains. -/
theorem paths_follow {destinations : List Chip} (h : r.paths source destinations = .ok p) :
    p.source = source ∧ p.paths.map (·.1) = destinations ∧
      ∃ costs, ∀ path ∈ p.paths, Follows (r.before? costs source) source path.2 path.1 := by
  obtain ⟨-, costs, paths, -, hpaths, rfl⟩ := paths_eq_ok.1 h
  obtain ⟨hmap, hfollows⟩ := retraceAll_spec hpaths
  exact ⟨rfl, hmap, costs, hfollows⟩

/-- The paths to destinations follow one record of predecessors, all of whose links work. -/
theorem paths_spec {destinations : List Chip} (h : r.paths source destinations = .ok p) :
    p.source = source ∧ p.paths.map (·.1) = destinations ∧
      ∃ before : Chip → Option (Direction × Chip), before source = none ∧
        (∀ {c d a}, before c = some (d, a) → r.machine.follow? a d = some c) ∧
        ∀ path ∈ p.paths, Follows before source path.2 path.1 := by
  obtain ⟨hstart, hmap, costs, hfollows⟩ := paths_follow h
  exact ⟨hstart, hmap, r.before? costs source, before?_source r costs source,
    fun hc => follow?_of_before? hc, hfollows⟩

end CostRouter

end Multicast
