import Multicast.Proofs.Machine.Paths
import Multicast.Proofs.Search.Walk
import Multicast.Repair.Detour

/-!
# `Multicast.Proofs.Repair.Detour`: the backward search

The search for a detour looks along links against their direction. `mem_inward`
says that it looks along the working ones, so what it can reach from a chip is what
has a path to that chip (`reaches_inward_iff`). Hence a detour found leads from a
goal to the chip and meets no goal on its way (`detour_eq_ok`), and where none is
found no goal has a path (`detour_eq_error`). The number of chips bounds the steps
of the search, so that neither outcome depends on the bound (`detour_exact`).
-/

set_option autoImplicit false

namespace Multicast.Fabric

variable {f : Fabric} {a b c n : Chip} {d : Direction}

/-- The neighbours looked at are those with a working link to the chip. -/
theorem mem_inward (hc : f.contains c = true) :
    (d, n) ∈ f.inward c ↔ f.follow? n d = some c := by
  have hback : (d, n) ∈ f.inward c ↔ f.step c d.opposite = some n ∧ f.isLink n d = true := by
    simp only [inward, List.mem_filterMap]
    constructor
    · rintro ⟨d', -, h⟩
      split at h
      · next m hm =>
        split at h
        · next hl =>
          obtain ⟨rfl, rfl⟩ := Prod.mk.inj (Option.some.inj h)
          exact ⟨hm, hl⟩
        · contradiction
      · contradiction
    · rintro ⟨hs, hl⟩
      exact ⟨d, d.mem_all, by simp [hs, hl]⟩
  rw [hback]
  constructor
  · rintro ⟨hs, hl⟩
    -- The link leads somewhere that works, and the only place it leads to is the chip.
    obtain ⟨m, hm⟩ := Option.isSome_iff_exists.1 hl
    have hstep := (Grid.step_opposite hc hs).2
    rw [Direction.opposite_opposite] at hstep
    obtain ⟨-, -, hnm, -⟩ := follow?_eq_some_iff.1 hm
    rwa [Option.some.inj (hstep.symm.trans hnm)]
  · intro h
    obtain ⟨hn, -, hs, -⟩ := follow?_eq_some_iff.1 h
    exact ⟨(Grid.step_opposite (contains_of_isChip hn) hs).2, by simp [isLink, h]⟩

/-- What is reached backwards from a chip has a path to it and lies on the grid. -/
theorem joined_of_reaches_inward (hc : f.contains c = true) (h : Search.Reaches f.inward c b) :
    f.Joined b c ∧ f.contains b = true := by
  induction h with
  | refl => exact ⟨.refl, hc⟩
  | tail _ he ih =>
      obtain ⟨d, hd⟩ := he
      have hf := (mem_inward ih.2).1 hd
      exact ⟨ih.1.head ⟨d, hf⟩, contains_of_isChip (isChip_of_follow? hf).1⟩

/-- The search backwards from a chip reaches those with a path to it, dead directions included. -/
theorem reaches_inward_iff (hc : f.contains c = true) :
    Search.Reaches f.inward c b ↔ f.Joined b c := by
  refine ⟨fun h => (joined_of_reaches_inward hc h).1, fun h => ?_⟩
  -- Along the path from its start, since the search meets its links in the opposite order.
  induction h using Relation.ReflTransGen.head_induction_on with
  | refl => exact .refl
  | head hlink _ ih =>
      obtain ⟨d, hd⟩ := hlink
      exact ih.tail ⟨d, (mem_inward (joined_of_reaches_inward hc ih).2).2 hd⟩

/-- The search stays on the grid, so that it has finitely many places to visit. -/
theorem mem_cells_of_reaches_inward (hc : f.contains c = true)
    (h : Search.Reaches f.inward c b) : b ∈ f.cells :=
  Grid.mem_cells.2 (joined_of_reaches_inward hc h).2

/-- A backward route, turned round, is a walk. -/
theorem isWalk_forwardHops {steps : List (Search.Step Chip Direction)}
    (hc : f.contains c = true) (h : Search.IsRoute f.inward c steps b) :
    f.IsWalk b (forwardHops steps) c := by
  -- The first step backwards is the last hop forwards.
  induction steps generalizing c with
  | nil => exact Eq.symm h
  | cons s rest ih =>
      obtain ⟨rfl, hs, hrest⟩ := h
      have hf := (mem_inward hc).1 hs
      have := (ih (contains_of_isChip (isChip_of_follow? hf).1) hrest).snoc hf
      simpa [forwardHops] using this

variable {start guide : Chip} {isGoal : Chip → Bool}

/-- A detour found starts on a goal, follows working links to the chip searched from, and meets
neither a chip twice nor a goal after its start. -/
theorem detour_eq_ok (hstart : f.contains start = true) {detour : Detour}
    (h : f.detour start guide isGoal = .ok detour) :
    isGoal detour.start = true ∧ f.IsWalk detour.start detour.hops start ∧
      (detour.start :: detour.hops.map (·.chip)).Nodup ∧
      ∀ hop ∈ detour.hops, isGoal hop.chip = false := by
  unfold Fabric.detour at h
  split at h
  · next goal steps hfound =>
    obtain rfl := Except.ok.inj h
    obtain ⟨hgoal, hroute, hnodup, hbefore⟩ := Search.bestFirst_eq_some
      (fun _ hb => mem_cells_of_reaches_inward hstart hb) (by rw [Grid.length_cells]; omega) hfound
    refine ⟨hgoal, isWalk_forwardHops hstart hroute, ?_, ?_⟩
    · -- The chips of the detour are the nodes of the route, turned round.
      have hchips : goal :: (forwardHops steps).map (·.chip) =
          (start :: steps.map (·.target)).reverse := by
        rw [← hroute.sources, List.reverse_append]
        simp [forwardHops, List.map_reverse, Function.comp_def]
      show (goal :: (forwardHops steps).map (·.chip)).Nodup
      rw [hchips]
      exact List.pairwise_reverse.2 (hnodup.imp Ne.symm)
    · intro hop hhop
      simp only [forwardHops, List.mem_map, List.mem_reverse] at hhop
      obtain ⟨s, hs, rfl⟩ := hhop
      exact hbefore s hs
  · contradiction

/-- Where no detour is found, no goal has a path to the chip searched from. -/
theorem detour_eq_error (hstart : f.contains start = true) {e : RouteError}
    (h : f.detour start guide isGoal = .error e) :
    e = .noLivePath start guide ∧ ∀ b, f.Joined b start → isGoal b = false := by
  unfold Fabric.detour at h
  split at h
  · contradiction
  · next hnone =>
    refine ⟨(Except.error.inj h).symm, fun b hb => ?_⟩
    exact Search.bestFirst_eq_none (fun _ hb => mem_cells_of_reaches_inward hstart hb)
      (by rw [Grid.length_cells]; omega) hnone ((reaches_inward_iff hstart).2 hb)

/-- The backward search ends, whatever steps it is given beyond the number of chips. It fails
exactly when no goal has a path over working links to the chip it starts from; otherwise the hops
found lead from a goal to that chip over working links and meet neither a chip twice nor a second
goal. -/
theorem detour_exact (f : Fabric) (start guide : Chip) (isGoal : Chip → Bool)
    (hstart : f.contains start = true) :
    (∀ bound, f.size + 1 ≤ bound →
      Search.bestFirst (fun c => f.distance c guide) f.inward isGoal bound start =
        Search.bestFirst (fun c => f.distance c guide) f.inward isGoal (f.size + 1) start) ∧
    (∀ error, f.detour start guide isGoal = .error error ↔
      error = .noLivePath start guide ∧ ∀ goal, f.Joined goal start → isGoal goal = false) ∧
    ∀ detour, f.detour start guide isGoal = .ok detour →
      isGoal detour.start = true ∧ f.IsWalk detour.start detour.hops start ∧
        (detour.start :: detour.hops.map (·.chip)).Nodup ∧
        ∀ hop ∈ detour.hops, isGoal hop.chip = false := by
  refine ⟨fun bound hbound => ?_, fun error => ⟨detour_eq_error hstart, ?_⟩,
    fun detour => detour_eq_ok hstart⟩
  · unfold Search.bestFirst
    rw [Search.walk_of_le _ isGoal (fun _ hb => mem_cells_of_reaches_inward hstart hb)
      (by rw [Grid.length_cells]; omega) hbound]
  · rintro ⟨rfl, hnone⟩
    cases h : f.detour start guide isGoal with
    | error e => rw [(detour_eq_error hstart h).1]
    | ok detour =>
        -- A detour would be a path from a goal.
        obtain ⟨hgoal, hwalk, -⟩ := detour_eq_ok hstart h
        rw [hnone _ hwalk.joined] at hgoal
        contradiction

/-- Two chips whose eastward link is dead and whose westward link works. -/
def westward : Fabric :=
  (Fabric.intact ⟨2, 1, false⟩).killLinkOneWay ⟨0, 0⟩ .east

/-- The eastern chip cannot be reached from the western one, which lies next to it. -/
theorem westward_exact :
    westward.contains ⟨0, 0⟩ = true ∧ westward.contains ⟨1, 0⟩ = true ∧
      (∀ bound, westward.size + 1 ≤ bound →
        Search.bestFirst (fun c => westward.distance c ⟨1, 0⟩) westward.inward (· == ⟨1, 0⟩) bound
            ⟨0, 0⟩ = some (⟨1, 0⟩, [⟨⟨0, 0⟩, .west, ⟨1, 0⟩⟩])) ∧
      westward.detour ⟨0, 0⟩ ⟨1, 0⟩ (· == ⟨1, 0⟩) = .ok ⟨⟨1, 0⟩, [⟨.west, ⟨0, 0⟩⟩]⟩ ∧
      westward.IsWalk ⟨1, 0⟩ [⟨.west, ⟨0, 0⟩⟩] ⟨0, 0⟩ ∧
      westward.detour ⟨1, 0⟩ ⟨0, 0⟩ (· == ⟨0, 0⟩) = .error (.noLivePath ⟨1, 0⟩ ⟨0, 0⟩) ∧
      ¬ westward.Joined ⟨0, 0⟩ ⟨1, 0⟩ := by
  have hwest : westward.contains ⟨0, 0⟩ = true := by decide
  have heast : westward.contains ⟨1, 0⟩ = true := by decide
  have hfound : westward.detour ⟨0, 0⟩ ⟨1, 0⟩ (· == ⟨1, 0⟩) = .ok ⟨⟨1, 0⟩, [⟨.west, ⟨0, 0⟩⟩]⟩ := by
    decide +kernel
  have hnone : westward.detour ⟨1, 0⟩ ⟨0, 0⟩ (· == ⟨0, 0⟩) =
      .error (.noLivePath ⟨1, 0⟩ ⟨0, 0⟩) := by
    decide +kernel
  obtain ⟨hbound, -, hok⟩ := detour_exact westward ⟨0, 0⟩ ⟨1, 0⟩ (· == ⟨1, 0⟩) hwest
  obtain ⟨-, herror, -⟩ := detour_exact westward ⟨1, 0⟩ ⟨0, 0⟩ (· == ⟨0, 0⟩) heast
  refine ⟨hwest, heast, fun bound h => (hbound bound h).trans (by decide +kernel), hfound,
    (hok _ hfound).2.1, hnone, fun hjoined => ?_⟩
  have := ((herror _).1 hnone).2 _ hjoined
  simp at this

end Multicast.Fabric
