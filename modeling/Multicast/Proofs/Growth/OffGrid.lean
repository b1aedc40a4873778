import Multicast.Proofs.Growth.Attach
import Multicast.Proofs.Growth.StraightRuns

/-!
# `Multicast.Proofs.Growth.OffGrid`: towards a chip that is not there

Nothing keeps a path in straight runs from being asked for towards a chip off the grid. On
a torus the vector between two chips does not tell such a chip from the one its coordinates
come to round the edges (`Grid.folded`), and the path leads there (`vector_folded`). On a
mesh the path cannot end where it should, so some step of it leads off the grid, and the error
is about the chip stepped from (`exists_error_of_hops`). `Grid.Heads` says what the path comes
to in each case.
-/

set_option autoImplicit false

namespace Multicast

namespace Grid

variable {g : Grid} {a b c : Chip}

/-- The chip of a torus in the place of a chip that may lie off it. -/
def folded (g : Grid) (c : Chip) : Chip :=
  ⟨c.x % g.width, c.y % g.height⟩

/-- Only remainders by the sides count for the way round a torus. -/
theorem vector_folded (hw : g.wraps = true) (a b : Chip) :
    g.vector a (g.folded b) = g.vector a b := by
  have hfold : ∀ p q w : Nat, (((q % w : Nat) : Int) - p) % w = ((q : Int) - p) % w := by
    intro p q w
    rw [Int.natCast_emod, Int.emod_sub_emod]
  rw [vector, vector, if_pos hw, if_pos hw]
  simp only [HopVector.around, HopVector.wayRound, folded, hfold]

/-- The chip in the place of another is on the grid. The chip `a` says that the grid has any chips,
hence sides that are not zero. -/
theorem contains_folded (ha : g.contains a = true) (b : Chip) : g.contains (g.folded b) = true := by
  obtain ⟨hx, hy⟩ := contains_iff.1 ha
  exact contains_iff.2 ⟨Nat.mod_lt _ (by omega), Nat.mod_lt _ (by omega)⟩

/-- A row of links from a chip of the grid can fail at a step off the grid only, and the error is
about the chip stepped from. -/
theorem exists_error_of_hops {links : List Direction} {e : RouteError} (ha : g.contains a = true)
    (h : g.hops links a = .error e) : ∃ c, e = .offMachine c ∧ g.contains c = true := by
  induction links generalizing a with
  | nil => contradiction
  | cons d links ih =>
      rw [hops] at h
      cases hstep : g.step a d with
      | none =>
          rw [hstep] at h
          exact ⟨a, (Except.error.inj h).symm, ha⟩
      | some next =>
          rw [hstep] at h
          rcases bind_eq_error.1 h with h | ⟨rest, -, h⟩
          · exact ih (step_opposite ha hstep).1 h
          · contradiction

/-- The vector between two chips of a mesh leads from one to the other and nowhere else. The links
of the vector add up to the difference of the coordinates, with no turn round an edge, and a walk
ends on the grid. -/
theorem contains_of_walk_mesh {hops : List Hop} (hw : g.wraps = false) (ha : g.contains a = true)
    (hwalk : g.IsWalk a hops c) (hlinks : hops.map (·.link) = linksOf (g.vector a b).runs) :
    g.contains b = true := by
  have hoffset := hwalk.offset ha
  rw [hlinks, HopVector.total_runs, vector, if_neg (by simp [hw])] at hoffset
  simp only [HopVector.direct, HopVector.ofOffset, HopVector.minimal, offset, hw,
    Bool.false_eq_true, if_false] at hoffset
  obtain ⟨hin, -⟩ := Option.ite_none_right_eq_some.1 hoffset
  exact contains_iff.2 ⟨by omega, by omega⟩

/-- What a path in straight runs comes to. It ends on the chip it should lead to, or round the edges
of a torus on the chip in the place of that; on a mesh it stops on the way to a chip off the
grid. -/
inductive Heads (g : Grid) (a b : Chip) : Except RouteError (List Hop) → Prop
  | arrives (hops : List Hop) (c : Chip) (hwalk : g.IsWalk a hops c)
      (hnodup : (a :: hops.map (·.chip)).Nodup)
      (hinside : ∀ hop ∈ hops, g.contains hop.chip = true) (hend : g.contains b = true → c = b)
      (hthere : g.contains b = true ∨ g.wraps = true) : Heads g a b (.ok hops)
  | stops (c : Chip) (hc : g.contains c = true) (hmesh : g.wraps = false)
      (hoff : g.contains b = false) : Heads g a b (.error (.offMachine c))

/-- From a chip of the grid, straight runs come to one of the ends of `Heads` for any chip, on the
grid or off it. To a chip on the grid it arrives. To a chip off a torus it goes as it goes to the
chip in its place, since the vector is the same; and on a mesh it cannot arrive, because a walk over
the links of the vector would end on the chip. -/
theorem straightRuns_heads (ha : g.contains a = true) (b : Chip) :
    Heads g a b (g.straightRuns a b) := by
  cases hb : g.contains b with
  | true =>
      obtain ⟨hops, hok, hwalk, -, -, hnodup, hin⟩ := straightRuns_walk ha hb
      rw [hok]
      exact .arrives hops b hwalk hnodup hin (fun _ => rfl) (.inl hb)
  | false =>
      have hoff : g.contains b ≠ true := by simp [hb]
      cases hw : g.wraps with
      | true =>
          obtain ⟨hops, hok, hwalk, -, -, hnodup, hin⟩ :=
            straightRuns_walk ha (contains_folded ha b)
          rw [straightRuns, vector_folded hw] at hok
          rw [straightRuns, hok]
          exact .arrives hops _ hwalk hnodup hin (fun h => absurd h hoff) (.inr hw)
      | false =>
          rw [straightRuns, follow_eq]
          cases hfollow : g.hops (linksOf (g.vector a b).runs) a with
          | ok hops =>
              obtain ⟨hwalk, hlinks⟩ := isWalk_of_hops hfollow
              exact absurd (contains_of_walk_mesh hw ha hwalk hlinks) hoff
          | error e =>
              obtain ⟨c, rfl, hc⟩ := exists_error_of_hops ha hfollow
              exact .stops c hc hw hb

end Grid

/-- An anchor is a chip of the tree, for whatever sink it is looked for. -/
theorem Anchor.contains_of_find {g : Grid} {index : ChipIndex} {sink a : Chip} {radius : Nat}
    (h : find g index sink radius = some a) : index.contains a = true := by
  unfold find at h
  split at h
  · have hnearest := scan_nearest g sink radius index.chips
    rw [h] at hnearest
    exact ChipIndex.mem_chips.1 hnearest.1
  · rw [probe, Ring.ask_eq] at h
    obtain ⟨o, -, ho⟩ := List.exists_of_findSome?_eq_some h
    exact (Option.filter_eq_some_iff.1 ho).2

/-- The path to a chip that is to be attached starts from a chip of the tree. -/
theorem Growth.contains_startOf {g : Growth} (hroot : g.index.contains g.rootChip = true)
    (grid : Grid) (c : Chip) (radius : Nat) :
    g.index.contains (g.startOf grid c radius) = true := by
  unfold startOf
  cases hfind : Anchor.find grid g.index c radius with
  | none => exact hroot
  | some a => exact Anchor.contains_of_find hfind

end Multicast
