import Mathlib.Algebra.BigOperators.Group.List.Basic
import Mathlib.Algebra.Ring.Int.Defs
import Mathlib.Data.List.Sort
import Multicast.Growth.StraightRuns
import Multicast.Proofs.Machine.Paths

/-!
# `Multicast.Proofs.Geometry.Runs`: straight runs lead where they should

A path in straight runs is a row of links followed one after another (`follow_eq`),
and where it leads depends on the sum of their vectors only (`offset_offset`). The
links of a shortest vector all lean towards one corner, so the path stays between
its ends and never comes back: on a torus because the vector is shorter than the
sides (`wayRound_spec`). So the links of the vector between two chips lead from one to the
other over different chips of the grid, in whatever order they are taken
(`hops_of_perm`).
-/

set_option autoImplicit false

namespace Multicast

namespace Grid

variable {g : Grid} {a b c : Chip} {o o' : Offset} {d : Direction} {links : List Direction}

/-- The change of column and row over a row of links. -/
def total (links : List Direction) : Offset :=
  ⟨(links.map fun d => d.vector.1).sum, (links.map fun d => d.vector.2).sum⟩

/-- Follows links one after another. -/
def hops (g : Grid) : List Direction → Chip → Except RouteError (List Hop)
  | [], _ => .ok []
  | d :: rest, c =>
    match g.step c d with
    | none => .error (.offMachine c)
    | some next => do
      let rest ← g.hops rest next
      return ⟨d, next⟩ :: rest

/-- The links of straight runs. -/
def linksOf (runs : List (Direction × Nat)) : List Direction :=
  runs.flatMap fun r => List.replicate r.2 r.1

/-- A straight run is the walk over as many links in one direction. -/
theorem straight_eq (g : Grid) (d : Direction) (n : Nat) (c : Chip) :
    g.straight d n c = g.hops (List.replicate n d) c := by
  induction n generalizing c with
  | zero => rfl
  | succ n ih =>
      rw [straight, List.replicate_succ, hops]
      cases g.step c d with
      | none => rfl
      | some next => simp only [ih]

/-- A path ends where it ends from its first hop on. -/
theorem endOf_cons (hop : Hop) (rest : List Hop) :
    endOf a (hop :: rest) = endOf hop.chip rest := by
  cases h : rest.getLast? with
  | none =>
      obtain rfl := List.getLast?_eq_none_iff.1 h
      rfl
  | some last => simp [endOf, List.getLast?_cons, h]

/-- Links one after the other give the hops of the first, and the hops of the rest from where those
end. The first error is the one returned. -/
theorem hops_append (g : Grid) (xs ys : List Direction) (c : Chip) :
    g.hops (xs ++ ys) c = do
      let run ← g.hops xs c
      let rest ← g.hops ys (endOf c run)
      return run ++ rest := by
  induction xs generalizing c with
  | nil =>
      show g.hops ys c = do
        let rest ← g.hops ys c
        return [] ++ rest
      cases g.hops ys c <;> rfl
  | cons d xs ih =>
      rw [List.cons_append, hops, hops]
      cases g.step c d with
      | none => rfl
      | some next =>
          simp only [ih]
          cases g.hops xs next with
          | error e => rfl
          | ok run =>
              simp only [bind, Except.bind, pure, Except.pure, endOf_cons]
              cases g.hops ys (endOf next run) <;> rfl

/-- Where links lead does not depend on their order. -/
theorem total_perm {xs ys : List Direction} (h : xs.Perm ys) : total xs = total ys := by
  rw [total, total, (h.map _).sum_eq, (h.map _).sum_eq]

/-- Straight runs are followed link by link. -/
theorem follow_eq (g : Grid) (runs : List (Direction × Nat)) (c : Chip) :
    g.follow runs c = g.hops (linksOf runs) c := by
  induction runs generalizing c with
  | nil => rfl
  | cons r runs ih =>
      obtain ⟨d, n⟩ := r
      rw [follow, linksOf, List.flatMap_cons, hops_append, straight_eq]
      simp only [ih]
      rfl

/-! ### Offsets -/

/-- No change leads from a chip of the grid to itself. -/
theorem offset_zero (ha : g.contains a = true) : g.offset a ⟨0, 0⟩ = some a := by
  obtain ⟨hx, hy⟩ := contains_iff.1 ha
  unfold offset
  simp only [Int.add_zero]
  split
  · -- A chip of the grid is its own remainder.
    rw [Int.emod_eq_of_lt (by omega) (by omega), Int.emod_eq_of_lt (by omega) (by omega)]
    rfl
  · rw [if_pos (by omega)]
    rfl

/-- Two offsets one after the other. They come to one offset by their sum, wrapped or not. -/
theorem offset_offset (ha : g.contains a = true) (h : g.offset a o = some b) :
    g.offset b o' = g.offset a ⟨o.dx + o'.dx, o.dy + o'.dy⟩ := by
  obtain ⟨hx, hy⟩ := contains_iff.1 ha
  unfold offset at h ⊢
  cases hw : g.wraps with
  | true =>
      simp only [hw, if_true, Option.some.injEq] at h ⊢
      subst h
      -- On a torus the remainder taken half way makes no difference to the one at the end.
      have hnx := Int.emod_nonneg ((a.x : Int) + o.dx) (show (g.width : Int) ≠ 0 by omega)
      have hny := Int.emod_nonneg ((a.y : Int) + o.dy) (show (g.height : Int) ≠ 0 by omega)
      simp only [Int.toNat_of_nonneg hnx, Int.toNat_of_nonneg hny, Int.emod_add_emod,
        Int.add_assoc]
  | false =>
      simp only [hw, Bool.false_eq_true, if_false] at h ⊢
      split at h
      · next hin =>
        obtain rfl := Option.some.inj h
        -- On a mesh the chip half way is on the grid, so its coordinates are not cut off at zero.
        have hx' : (((a.x : Int) + o.dx).toNat : Int) = a.x + o.dx := by omega
        have hy' : (((a.y : Int) + o.dy).toNat : Int) = a.y + o.dy := by omega
        simp only [hx', hy', Int.add_assoc]
      · contradiction

/-- Less than once round a side leads back only if it is nothing. -/
theorem eq_zero_of_emod {x k : Int} {w : Nat} (hk : k.natAbs < w) (h : (x + k) % w = x) :
    k = 0 := by
  have hdvd : (w : Int) ∣ x + k - x := Int.dvd_self_sub_of_emod_eq h
  rw [show x + k - x = k by omega] at hdvd
  exact Int.eq_zero_of_dvd_of_natAbs_lt_natAbs hdvd (by simpa using hk)

/-- An offset shorter than the sides of a torus leads away. On a mesh any offset but nothing does.
-/
theorem offset_ne (ha : g.contains a = true) (h : g.offset a o = some b)
    (hne : o.dx ≠ 0 ∨ o.dy ≠ 0)
    (hshort : g.wraps = true → o.dx.natAbs < g.width ∧ o.dy.natAbs < g.height) : b ≠ a := by
  rintro rfl
  obtain ⟨hx, hy⟩ := contains_iff.1 ha
  unfold offset at h
  cases hw : g.wraps with
  | true =>
      -- Back on the same chip, both changes are multiples of the sides, so both are nothing.
      obtain ⟨hsx, hsy⟩ := hshort hw
      simp only [hw, if_true, Option.some.injEq] at h
      have hex : (((b.x : Int) + o.dx) % g.width).toNat = b.x := congrArg Chip.x h
      have hey : (((b.y : Int) + o.dy) % g.height).toNat = b.y := congrArg Chip.y h
      have hnx := Int.emod_nonneg ((b.x : Int) + o.dx) (show (g.width : Int) ≠ 0 by omega)
      have hny := Int.emod_nonneg ((b.y : Int) + o.dy) (show (g.height : Int) ≠ 0 by omega)
      have hzx := eq_zero_of_emod (x := b.x) hsx (by omega)
      have hzy := eq_zero_of_emod (x := b.y) hsy (by omega)
      exact hne.elim (· hzx) (· hzy)
  | false =>
      simp only [hw, Bool.false_eq_true, if_false] at h
      split at h
      · have hex : ((b.x : Int) + o.dx).toNat = b.x := congrArg Chip.x (Option.some.inj h)
        have hey : ((b.y : Int) + o.dy).toNat = b.y := congrArg Chip.y (Option.some.inj h)
        omega
      · contradiction

/-! ### Links that lean one way -/

/-- A link leads towards the corner given by the signs of the two changes. -/
def Leans (sx sy : Int) (d : Direction) : Prop :=
  0 ≤ sx * d.vector.1 ∧ 0 ≤ sy * d.vector.2

/-- An offset lies between nothing and another one, seen towards a corner. -/
def Upto (sx sy : Int) (o bound : Offset) : Prop :=
  (0 ≤ sx * o.dx ∧ sx * o.dx ≤ sx * bound.dx) ∧ 0 ≤ sy * o.dy ∧ sy * o.dy ≤ sy * bound.dy

section Leaning

variable {sx sy : Int} (hsx : sx = 1 ∨ sx = -1) (hsy : sy = 1 ∨ sy = -1)

/-- The change along a row of links, by its first link. -/
theorem total_cons (d : Direction) (rest : List Direction) :
    total (d :: rest) = ⟨d.vector.1 + (total rest).dx, d.vector.2 + (total rest).dy⟩ := by
  simp [total]

/-- Links that lean one way along both sides cannot undo what they have gained, so the change from
the start to any later point leans the same way. -/
theorem total_nonneg (h : ∀ d ∈ links, Leans sx sy d) :
    0 ≤ sx * (total links).dx ∧ 0 ≤ sy * (total links).dy := by
  induction links with
  | nil => simp [total]
  | cons d rest ih =>
      obtain ⟨hx, hy⟩ := h d (List.mem_cons_self ..)
      have ih := ih fun e he => h e (List.mem_cons_of_mem _ he)
      rw [total_cons]
      simp only [Int.mul_add]
      omega

include hsx hsy

/-- Between two chips of a grid there are chips. On a mesh the coordinates between those of two
chips are on the grid, on a torus all are. -/
theorem exists_offset (ha : g.contains a = true) (h : g.offset a o' = some b)
    (ho : Upto sx sy o o') : ∃ c, g.offset a o = some c ∧ g.contains c = true := by
  suffices hsome : ∃ c, g.offset a o = some c from
    hsome.imp fun c hc => ⟨hc, (mem_offset ha hc).1⟩
  obtain ⟨hx, hy⟩ := contains_iff.1 ha
  obtain ⟨⟨hx0, hx1⟩, hy0, hy1⟩ := ho
  unfold offset at h ⊢
  cases hw : g.wraps with
  | true => simp
  | false =>
      simp only [hw, Bool.false_eq_true, if_false] at h ⊢
      split at h
      · next hin =>
        rw [if_pos]
        · exact ⟨_, rfl⟩
        · -- Either sign puts the coordinates between those of the ends.
          rcases hsx with rfl | rfl <;> rcases hsy with rfl | rfl <;> omega
      · contradiction

/-- The first of some leaning links is part of the way. -/
theorem upto_cons (hlean : ∀ e ∈ d :: links, Leans sx sy e) (ho : Upto sx sy o (total links)) :
    Upto sx sy ⟨d.vector.1 + o.dx, d.vector.2 + o.dy⟩ (total (d :: links)) ∧
      (d.vector.1 + o.dx ≠ 0 ∨ d.vector.2 + o.dy ≠ 0) := by
  obtain ⟨hx, hy⟩ := hlean d (List.mem_cons_self ..)
  obtain ⟨⟨hx0, hx1⟩, hy0, hy1⟩ := ho
  -- No link leads nowhere, and what leans one way cannot cancel.
  have hmoves : d.vector.1 ≠ 0 ∨ d.vector.2 ≠ 0 := by
    cases d <;> decide
  rw [total_cons]
  simp only [Upto, Int.mul_add]
  refine ⟨by omega, ?_⟩
  rcases hsx with rfl | rfl <;> rcases hsy with rfl | rfl <;> omega

/-- Leaning links lead on without coming back. They come to less than a turn of a torus, so the
change from one chip to a later one is never nothing, not even wrapped. -/
theorem hops_spec (hlean : ∀ d ∈ links, Leans sx sy d) (ha : g.contains a = true)
    (hb : g.offset a (total links) = some b)
    (hshort : g.wraps = true →
      sx * (total links).dx < g.width ∧ sy * (total links).dy < g.height) :
    ∃ hops, g.hops links a = .ok hops ∧ endOf a hops = b ∧ (a :: hops.map (·.chip)).Nodup ∧
      ∀ hop ∈ hops, g.contains hop.chip = true ∧ ∃ o, g.offset a o = some hop.chip ∧
        Upto sx sy o (total links) ∧ (o.dx ≠ 0 ∨ o.dy ≠ 0) := by
  -- On the links, with the start moving on: a chip of the rest is placed as seen from `a` too,
  -- which tells it from `a`.
  induction links generalizing a with
  | nil =>
      exact ⟨[], rfl, Option.some.inj ((offset_zero ha).symm.trans hb), by simp, by simp⟩
  | cons d rest ih =>
      have hrest : ∀ e ∈ rest, Leans sx sy e := fun e he => hlean e (List.mem_cons_of_mem _ he)
      obtain ⟨hx, hy⟩ := total_nonneg hrest
      have hfirst := upto_cons hsx hsy hlean (o := ⟨0, 0⟩) (by simp [Upto, hx, hy])
      simp only [Int.add_zero] at hfirst
      obtain ⟨next, hnext, hin⟩ := exists_offset hsx hsy ha hb hfirst.1
      have hb' : g.offset next (total rest) = some b := by
        rw [offset_offset ha hnext, ← hb, total_cons]
      have hshort' : ∀ {o}, Upto sx sy o (total (d :: rest)) → g.wraps = true →
          o.dx.natAbs < g.width ∧ o.dy.natAbs < g.height := by
        rintro o ⟨⟨hx0, hx1⟩, hy0, hy1⟩ hw
        obtain ⟨hlx, hly⟩ := hshort hw
        rcases hsx with rfl | rfl <;> rcases hsy with rfl | rfl <;> omega
      have hless : g.wraps = true →
          sx * (total rest).dx < g.width ∧ sy * (total rest).dy < g.height := by
        intro hw
        obtain ⟨hlx, hly⟩ := hshort hw
        obtain ⟨hdx, hdy⟩ := hlean d (List.mem_cons_self ..)
        rw [total_cons] at hlx hly
        simp only [Int.mul_add] at hlx hly
        omega
      obtain ⟨hops, hok, hend, hnodup, hall⟩ := ih hrest hin hb' hless
      -- Where the chips lie as seen from `a`, the first link put before their offsets from `next`.
      have hall' : ∀ hop ∈ (⟨d, next⟩ : Hop) :: hops, g.contains hop.chip = true ∧
          ∃ o, g.offset a o = some hop.chip ∧ Upto sx sy o (total (d :: rest)) ∧
            (o.dx ≠ 0 ∨ o.dy ≠ 0) := by
        intro hop hhop
        rcases List.mem_cons.1 hhop with rfl | hhop
        · exact ⟨hin, _, hnext, hfirst⟩
        · obtain ⟨hc, o, ho, hupto, -⟩ := hall hop hhop
          refine ⟨hc, _, ?_, upto_cons hsx hsy hlean hupto⟩
          rw [← offset_offset ha hnext, ho]
      refine ⟨⟨d, next⟩ :: hops, ?_, ?_, ?_, hall'⟩
      · have hstep : g.step a d = some next := hnext
        simp only [Grid.hops, hstep, hok]
        rfl
      · rw [endOf_cons, hend]
      · refine List.nodup_cons.2 ⟨fun hmem => ?_, hnodup⟩
        -- A second visit to `a` would be a way round the torus that is shorter than a side.
        obtain ⟨hop, hhop, heq⟩ := List.mem_map.1 hmem
        obtain ⟨-, o, ho, hupto, hne⟩ := hall' hop hhop
        exact offset_ne ha ho hne (hshort' hupto) heq

end Leaning

end Grid

/-! ### The runs of a vector -/

/-- The change of column and row over one hop forwards along an axis. -/
def Axis.unit : Axis → Int × Int
  | .x => (1, 0)
  | .y => (0, 1)
  | .z => (-1, -1)

namespace HopVector

open Grid (total linksOf Leans)

/-- The run along one axis. -/
def runOf (a : Axis × Int) : Direction × Nat :=
  (a.1.link (decide (0 < a.2)), a.2.natAbs)

/-- A run is no shorter than another one. -/
def NoShorter (a b : Axis × Int) : Prop :=
  b.2.natAbs ≤ a.2.natAbs

instance (a b : Axis × Int) : Decidable (NoShorter a b) :=
  inferInstanceAs (Decidable (b.2.natAbs ≤ a.2.natAbs))

instance : Std.Total NoShorter :=
  ⟨fun a b => Nat.le_total b.2.natAbs a.2.natAbs⟩

instance : IsTrans (Axis × Int) NoShorter :=
  ⟨fun _ _ _ hab hbc => Nat.le_trans hbc hab⟩

/-- The insertion into the runs is the ordered insertion of the library, so that its lemmas about
sorting apply. -/
theorem insertRun_eq (a : Axis × Int) (l : List (Axis × Int)) :
    insertRun a l = l.orderedInsert NoShorter a := by
  induction l with
  | nil => rfl
  | cons b l ih =>
      rw [insertRun, ih]
      rfl

/-- The runs are put in order by insertion. -/
theorem foldr_insertRun_eq (l : List (Axis × Int)) :
    l.foldr insertRun [] = l.insertionSort NoShorter := by
  induction l with
  | nil => rfl
  | cons a l ih => rw [List.foldr_cons, ih, insertRun_eq, List.insertionSort_cons]

/-- Sorting the runs neither drops nor makes one. -/
theorem foldr_insertRun_perm (l : List (Axis × Int)) : (l.foldr insertRun []).Perm l := by
  rw [foldr_insertRun_eq]
  exact l.perm_insertionSort NoShorter

/-- The change along two rows of links is the sum of theirs. -/
theorem total_append (xs ys : List Direction) :
    total (xs ++ ys) = ⟨(total xs).dx + (total ys).dx, (total xs).dy + (total ys).dy⟩ := by
  simp [total]

/-- A run leads as far along its axis as it says. -/
theorem total_runOf (a : Axis × Int) : total (List.replicate (runOf a).2 (runOf a).1) =
    ⟨a.2 * a.1.unit.1, a.2 * a.1.unit.2⟩ := by
  obtain ⟨axis, k⟩ := a
  have hk : (k.natAbs : Int) = if 0 < k then k else -k := by
    split <;> omega
  cases axis <;> by_cases hpos : 0 < k <;>
    simp [total, runOf, Axis.link, Axis.unit, Direction.vector, hpos, hk]

/-- A run of no hops has no links, so it does not matter that such runs are left out. -/
theorem linksOf_filter (l : List (Axis × Int)) :
    linksOf ((l.filter fun a => a.2 != 0).map runOf) =
      l.flatMap fun a => List.replicate (runOf a).2 (runOf a).1 := by
  induction l with
  | nil => rfl
  | cons a l ih =>
      by_cases h0 : a.2 = 0
      · rw [List.filter_cons_of_neg (by simp [h0]), ih]
        simp [runOf, h0]
      · rw [List.filter_cons_of_pos (by simpa using h0), List.map_cons, linksOf,
          List.flatMap_cons, List.flatMap_cons, ← ih]
        rfl

/-- The links of some runs change the position by the sum of the runs, each along its own axis. Runs
that are zero are left out and change nothing. -/
theorem total_linksOf (l : List (Axis × Int)) :
    total (linksOf ((l.filter fun a => a.2 != 0).map runOf)) =
      ⟨(l.map fun a => a.2 * a.1.unit.1).sum, (l.map fun a => a.2 * a.1.unit.2).sum⟩ := by
  rw [linksOf_filter]
  induction l with
  | nil => rfl
  | cons a l ih =>
      rw [List.flatMap_cons, total_append, total_runOf, ih]
      simp

/-- The runs of a vector lead where the vector does. -/
theorem total_runs (v : HopVector) : total (linksOf v.runs) = ⟨v.x - v.z, v.y - v.z⟩ := by
  -- The order of the runs is by length and leaves the sum alone.
  have hperm := foldr_insertRun_perm v.components
  have hx := (hperm.map fun a => a.2 * a.1.unit.1).sum_eq
  have hy := (hperm.map fun a => a.2 * a.1.unit.2).sum_eq
  have hruns : v.runs = ((v.components.foldr insertRun []).filter fun a => a.2 != 0).map runOf :=
    rfl
  rw [hruns, total_linksOf, hx, hy]
  simp [components, Axis.unit]
  omega

/-- A link of the runs goes along an axis with some hops. -/
theorem mem_linksOf_runs {v : HopVector} {d : Direction} (h : d ∈ linksOf v.runs) :
    ∃ a ∈ v.components, a.2 ≠ 0 ∧ d = a.1.link (decide (0 < a.2)) := by
  obtain ⟨r, hr, hd⟩ := List.mem_flatMap.1 h
  obtain ⟨a, ha, rfl⟩ := List.mem_map.1 hr
  obtain ⟨ha, h0⟩ := List.mem_filter.1 ha
  exact ⟨a, (foldr_insertRun_perm _).mem_iff.1 ha, by simpa using h0, List.eq_of_mem_replicate hd⟩

/-- A hop along an axis leans where a run along it does. -/
theorem leans_link {sx sy k : Int} (hsx : sx = 1 ∨ sx = -1) (hsy : sy = 1 ∨ sy = -1) (axis : Axis)
    (hk : k ≠ 0) (hx : 0 ≤ sx * (k * axis.unit.1)) (hy : 0 ≤ sy * (k * axis.unit.2)) :
    Leans sx sy (axis.link (decide (0 < k))) := by
  -- For a link of either sense first, as deciding the sign hides it.
  have hlink : ∀ b, (b = true → 0 < k) → (b = false → k < 0) → Leans sx sy (axis.link b) := by
    intro b hpos hneg
    rcases hsx with rfl | rfl <;> rcases hsy with rfl | rfl <;> cases axis <;> cases b <;>
      simp [Axis.unit, Axis.link, Leans, Direction.vector] at hx hy hpos hneg ⊢ <;> omega
  exact hlink _ of_decide_eq_true fun h => by
    have := of_decide_eq_false h
    omega

/-- Taking the median away turns no component round. -/
theorem median_between {sx sy dx dy : Int} (hsx : sx = 1 ∨ sx = -1) (hsy : sy = 1 ∨ sy = -1)
    (hx : 0 ≤ sx * dx) (hy : 0 ≤ sy * dy) :
    (0 ≤ sx * (dx - median dx dy 0) ∧ 0 ≤ sy * (dy - median dx dy 0)) ∧
      0 ≤ sx * median dx dy 0 ∧ 0 ≤ sy * median dx dy 0 := by
  -- With nothing as third component the median is the nearer one, or nothing if the signs differ.
  unfold median
  rcases hsx with rfl | rfl <;> rcases hsy with rfl | rfl <;> omega

/-- The links of a shortest vector lean towards its corner. -/
theorem leans_ofOffset {sx sy dx dy : Int} (hsx : sx = 1 ∨ sx = -1) (hsy : sy = 1 ∨ sy = -1)
    (hx : 0 ≤ sx * dx) (hy : 0 ≤ sy * dy) :
    ∀ d ∈ linksOf (ofOffset dx dy).runs, Leans sx sy d := by
  intro d hd
  obtain ⟨a, ha, h0, rfl⟩ := mem_linksOf_runs hd
  obtain ⟨⟨hmx, hmy⟩, hzx, hzy⟩ := median_between hsx hsy hx hy
  refine leans_link hsx hsy a.1 h0 ?_ ?_ <;>
    simp only [components, ofOffset, minimal, List.mem_cons, List.not_mem_nil, or_false] at ha <;>
    rcases ha with rfl | rfl | rfl <;> simp [Axis.unit, hmx, hmy, hzx, hzy]

/-- Every change is away from zero one way or the other; a zero change counts as both. -/
theorem exists_sign (k : Int) : ∃ s : Int, (s = 1 ∨ s = -1) ∧ 0 ≤ s * k := by
  rcases Int.le_total 0 k with h | h
  · exact ⟨1, .inl rfl, by omega⟩
  · exact ⟨-1, .inr rfl, by omega⟩

end HopVector

namespace Grid

variable {g : Grid} {a b : Chip}

/-- The way chosen goes round a side only if the target is not straight ahead. Only the four ways
round are compared, and going round where nothing is to be changed is never shorter. -/
theorem shortest_approach {width height : Nat} {x y : Int} (hx : 0 ≤ x ∧ x < width)
    (hy : 0 ≤ y ∧ y < height) {best : HopVector.Approach}
    (hbest : best = HopVector.Approach.shortest ⟨max x y, x, y⟩
      (HopVector.approaches width height x y)) :
    (best.dx = x ∨ best.dx = x - width ∧ x ≠ 0) ∧
      (best.dy = y ∨ best.dy = y - height ∧ y ≠ 0) := by
  have hmax : ∀ p q : Int, p ≤ max p q ∧ q ≤ max p q ∧ (max p q = p ∨ max p q = q) :=
    fun p q => ⟨Int.le_max_left p q, Int.le_max_right p q, by omega⟩
  have hstraight := hmax x y
  have hround := hmax (width - x) (height - y)
  simp only [HopVector.Approach.shortest, HopVector.approaches, List.foldl_cons,
    List.foldl_nil, ite_self] at hbest
  generalize max x y = straight at *
  generalize max (width - x) (height - y) = round at *
  -- The comparisons one after another, from the inside.
  by_cases hcolumns : width - x + y < straight <;> simp only [hcolumns, if_true, if_false] at hbest
  · by_cases hrows : x + height - y < width - x + y <;>
      simp only [hrows, if_true, if_false] at hbest
    · split at hbest <;> subst hbest <;> dsimp only <;> omega
    · split at hbest <;> subst hbest <;> dsimp only <;> omega
  · by_cases hrows : x + height - y < straight <;> simp only [hrows, if_true, if_false] at hbest
    · split at hbest <;> subst hbest <;> dsimp only <;> omega
    · split at hbest <;> subst hbest <;> dsimp only <;> omega

/-- The shortest way round a torus leads to the target and is shorter than the sides. A change of
less than a turn, forwards or back, comes to the target because both are the same up to full
turns. -/
theorem wayRound_spec {way : HopVector.Approach} (hw : g.wraps = true) (ha : g.contains a = true)
    (hb : g.contains b = true) (hway : HopVector.wayRound a b g.width g.height = way) :
    g.offset a ⟨way.dx, way.dy⟩ = some b ∧
      way.dx.natAbs < g.width ∧ way.dy.natAbs < g.height := by
  obtain ⟨hax, hay⟩ := contains_iff.1 ha
  obtain ⟨hbx, hby⟩ := contains_iff.1 hb
  have hx := Int.emod_nonneg ((b.x : Int) - a.x) (show (g.width : Int) ≠ 0 by omega)
  have hy := Int.emod_nonneg ((b.y : Int) - a.y) (show (g.height : Int) ≠ 0 by omega)
  have hlx := Int.emod_lt_of_pos ((b.x : Int) - a.x) (show 0 < (g.width : Int) by omega)
  have hly := Int.emod_lt_of_pos ((b.y : Int) - a.y) (show 0 < (g.height : Int) by omega)
  obtain ⟨hdx, hdy⟩ := shortest_approach ⟨hx, hlx⟩ ⟨hy, hly⟩ hway.symm
  refine ⟨?_, by omega, by omega⟩
  -- Going on, or back from the other side, ends on the same column or row.
  have hturn : ∀ {k : Int} {p q w : Nat}, q < w →
      k = ((q : Int) - p) % w ∨ k = ((q : Int) - p) % w - w → ((p : Int) + k) % w = q := by
    rintro k p q w hq (rfl | rfl)
    · rw [Int.add_emod_emod, show (p : Int) + (q - p) = q by omega]
      exact Int.emod_eq_of_lt (by omega) (by omega)
    · rw [← Int.add_sub_assoc, Int.sub_emod_right, Int.add_emod_emod,
        show (p : Int) + (q - p) = q by omega]
      exact Int.emod_eq_of_lt (by omega) (by omega)
  unfold offset
  rw [if_pos hw, hturn hbx (hdx.imp_right And.left), hturn hby (hdy.imp_right And.left)]
  rfl

/-- The vector between two chips leads from one to the other. On a torus it is shorter than the
sides too, which keeps the walk from meeting itself. -/
theorem vector_spec (ha : g.contains a = true) (hb : g.contains b = true) :
    ∃ o : Offset, g.vector a b = HopVector.ofOffset o.dx o.dy ∧ g.offset a o = some b ∧
      (g.wraps = true → o.dx.natAbs < g.width ∧ o.dy.natAbs < g.height) := by
  unfold vector
  split
  · next hw =>
    obtain ⟨ho, hshort⟩ := wayRound_spec hw ha hb rfl
    exact ⟨_, rfl, ho, fun _ => hshort⟩
  · next hw =>
    obtain ⟨hx, hy⟩ := contains_iff.1 hb
    refine ⟨⟨(b.x : Int) - a.x, (b.y : Int) - a.y⟩, rfl, ?_, fun h => absurd h hw⟩
    unfold offset
    rw [if_neg hw]
    simp only [show (a.x : Int) + (b.x - a.x) = b.x by omega,
      show (a.y : Int) + (b.y - a.y) = b.y by omega]
    rw [if_pos (by omega)]
    rfl

/-- The links of the vector between two chips lead from one to the other in whatever order they are
taken; the path stays on the grid and passes no chip twice. -/
theorem hops_of_perm (ha : g.contains a = true) (hb : g.contains b = true)
    {links : List Direction} (hperm : links.Perm (linksOf (g.vector a b).runs)) :
    ∃ hops, g.hops links a = .ok hops ∧ endOf a hops = b ∧
      (a :: hops.map (·.chip)).Nodup ∧ ∀ hop ∈ hops, g.contains hop.chip = true := by
  obtain ⟨o, hv, ho, hshort⟩ := vector_spec ha hb
  obtain ⟨sx, hsx, hx⟩ := HopVector.exists_sign o.dx
  obtain ⟨sy, hsy, hy⟩ := HopVector.exists_sign o.dy
  rw [hv] at hperm
  have htotal : total links = o := by
    rw [total_perm hperm, HopVector.total_runs]
    simp [HopVector.ofOffset, HopVector.minimal]
  have hlean : ∀ d ∈ links, Leans sx sy d := fun d hd =>
    HopVector.leans_ofOffset hsx hsy hx hy d (hperm.mem_iff.1 hd)
  obtain ⟨hops, hok, hend, hnodup, hall⟩ := hops_spec (g := g) hsx hsy hlean ha
    (by rw [htotal, ho]) (fun hw => by
      obtain ⟨hlx, hly⟩ := hshort hw
      rw [htotal]
      rcases hsx with rfl | rfl <;> rcases hsy with rfl | rfl <;> omega)
  exact ⟨hops, hok, hend, hnodup, fun hop hhop => (hall hop hhop).1⟩

end Grid

end Multicast
