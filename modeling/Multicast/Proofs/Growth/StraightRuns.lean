import Multicast.Proofs.Geometry.Distance

/-!
# `Multicast.Proofs.Growth.StraightRuns`: a path in straight runs is a shortest one

The path between two chips takes the links of the vector between them, so it is a walk
as long as their distance (`straightRuns_walk`). What is left to say is how it turns.
Taking the median away leaves nothing of one component of a vector
(`exists_zero_component`). The runs are ordered by length, which puts the empty one
last, so there are two of them at most and the longer one comes first
(`exists_two_runs`).
-/

set_option autoImplicit false

namespace Multicast

namespace HopVector

open Grid (linksOf)

/-- A shortest vector has nothing to do along one axis. -/
theorem exists_zero_component (dx dy : Int) : ∃ a ∈ (ofOffset dx dy).components, a.2 = 0 := by
  -- The median is one of the three numbers it is taken away from.
  have hmedian : dx - median dx dy 0 = 0 ∨ dy - median dx dy 0 = 0 ∨ 0 - median dx dy 0 = 0 := by
    unfold median
    omega
  simpa [components, ofOffset, minimal] using hmedian

/-- The links of a shortest vector come in two straight runs, the second one no longer. -/
theorem exists_two_runs (dx dy : Int) :
    ∃ d e m n, n ≤ m ∧
      linksOf (ofOffset dx dy).runs = List.replicate m d ++ List.replicate n e := by
  obtain ⟨a, ha, hzero⟩ := exists_zero_component dx dy
  have hsorted : ((ofOffset dx dy).components.foldr insertRun []).Pairwise NoShorter := by
    rw [foldr_insertRun_eq]
    exact List.pairwise_insertionSort NoShorter _
  have hperm := foldr_insertRun_perm (ofOffset dx dy).components
  have hlength := hperm.length_eq
  rw [← hperm.mem_iff] at ha
  rw [linksOf_runs]
  generalize (ofOffset dx dy).components.foldr insertRun [] = l at *
  match l, hlength with
  | [p, q, r], _ =>
    -- The run along the last axis is no longer than the empty one.
    simp only [List.pairwise_cons, List.mem_cons, List.not_mem_nil, or_false, forall_eq_or_imp,
      forall_eq, NoShorter] at hsorted ha
    have hlast : r.2.natAbs = 0 := by
      rcases ha with rfl | rfl | rfl <;> omega
    refine ⟨(runOf p).1, (runOf q).1, p.2.natAbs, q.2.natAbs, hsorted.1.1, ?_⟩
    simp [runOf, hlast]

end HopVector

namespace Grid

variable {g : Grid} {a b : Chip}

/-- The path in straight runs is a walk over the links of the vector, as long as the distance. -/
theorem straightRuns_walk (ha : g.contains a = true) (hb : g.contains b = true) :
    ∃ hops, g.straightRuns a b = .ok hops ∧ g.IsWalk a hops b ∧
      hops.map (·.link) = linksOf (g.vector a b).runs ∧ hops.length = g.distance a b ∧
      (a :: hops.map (·.chip)).Nodup ∧ ∀ hop ∈ hops, g.contains hop.chip = true := by
  obtain ⟨hops, hok, hend, hnodup, hin⟩ := hops_of_perm ha hb (.refl _)
  obtain ⟨hwalk, hlinks⟩ := isWalk_of_hops hok
  rw [hend] at hwalk
  refine ⟨hops, ?_, hwalk, hlinks, ?_, hnodup, hin⟩
  · rw [straightRuns, follow_eq, hok]
  · calc hops.length
        = (linksOf (g.vector a b).runs).length := by rw [← hlinks, List.length_map]
      _ = (g.vector a b).links.length := (HopVector.linksOf_runs_perm _).length_eq
      _ = g.distance a b := HopVector.length_links _

/-- The path in straight runs between two chips of a grid always exists. It is a shortest walk from
one to the other, visits no chip twice, and turns once at most, after the longer run. -/
theorem straightRuns_shortest (g : Grid) (a b : Chip) (ha : g.contains a = true)
    (hb : g.contains b = true) :
    ∃ hops, g.straightRuns a b = .ok hops ∧ g.IsWalk a hops b ∧
      hops.length = g.distance a b ∧ (a :: hops.map (·.chip)).Nodup ∧
      ∃ d e m n, n ≤ m ∧ hops.map (·.link) = List.replicate m d ++ List.replicate n e := by
  obtain ⟨hops, hok, hwalk, hlinks, hlength, hnodup, -⟩ := straightRuns_walk ha hb
  refine ⟨hops, hok, hwalk, hlength, hnodup, ?_⟩
  obtain ⟨o, hv, -⟩ := vector_spec ha hb
  rw [hlinks, hv]
  exact HopVector.exists_two_runs o.dx o.dy

/-- Round both sides of a torus two chips wide the path has two runs of one hop. -/
theorem slimTorus_straightRuns :
    slimTorus.contains ⟨0, 0⟩ = true ∧ slimTorus.contains ⟨1, 3⟩ = true ∧
      ∃ hops, slimTorus.straightRuns ⟨0, 0⟩ ⟨1, 3⟩ = .ok hops ∧
        slimTorus.IsWalk ⟨0, 0⟩ hops ⟨1, 3⟩ ∧ hops.length = 2 ∧
        ((⟨0, 0⟩ : Chip) :: hops.map (·.chip)).Nodup := by
  have hsource : slimTorus.contains ⟨0, 0⟩ = true := by decide
  have htarget : slimTorus.contains ⟨1, 3⟩ = true := by decide
  obtain ⟨hops, hok, hwalk, hlength, hnodup, -⟩ :=
    straightRuns_shortest slimTorus ⟨0, 0⟩ ⟨1, 3⟩ hsource htarget
  exact ⟨hsource, htarget, hops, hok, hwalk, hlength.trans (by decide), hnodup⟩

end Grid

end Multicast
