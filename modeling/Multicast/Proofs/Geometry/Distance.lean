import Mathlib.Order.Bounds.Defs
import Multicast.Proofs.Geometry.Runs

/-!
# `Multicast.Proofs.Geometry.Distance`: the distance counts the steps that are needed

`Grid.distance` is computed: a median is taken away, on a torus from the first of four
ways round. Here it is compared with walks over the links of the grid (`Grid.IsWalk`),
of which there are far more: they may leave the straight line, and on a torus wind round
either side any number of times.

A walk matters only through the sum of its links. The hops of an offset are a norm
(`Offset.hops_eq`) in which every link has length one, so a sum of links has no more
hops than links (`hops_total_le`). On a torus the sum of a walk can be turned back to
less than once round each side, without turning it over, which does not lengthen it
(`exists_turn`), and then it is one of the four ways that were compared
(`around_le`). So no walk is shorter than the distance, and the links of the vector,
taken in any order, make a walk as long as the distance (`exists_walk`).
-/

set_option autoImplicit false

namespace Multicast

/-! ### The norm of an offset -/

namespace Offset

variable {o o' : Offset}

/-- The hops of an offset are the larger of its two changes where they lean the same way, and their
sum where they do not. -/
theorem hops_eq (o : Offset) :
    o.hops = max (max o.dx.natAbs o.dy.natAbs) (o.dx - o.dy).natAbs := by
  show (o.dx - median o.dx o.dy 0).natAbs + (o.dy - median o.dx o.dy 0).natAbs +
    (0 - median o.dx o.dy 0).natAbs = _
  unfold median
  omega

/-- An offset is within some hops when its changes are, and the one less the other. -/
theorem hops_le_iff {n : Nat} : o.hops ≤ n ↔
    (o.dx.natAbs ≤ n ∧ o.dy.natAbs ≤ n) ∧ (o.dx - o.dy).natAbs ≤ n := by
  rw [hops_eq, Nat.max_le, Nat.max_le]

/-- Only the offset that goes nowhere takes no hops. -/
theorem hops_eq_zero : o.hops = 0 ↔ o = ⟨0, 0⟩ := by
  obtain ⟨dx, dy⟩ := o
  rw [hops_eq, Offset.mk.injEq]
  dsimp only
  omega

/-- One offset after another is no more hops than the two by themselves, since a change along the
diagonal can only save hops. -/
theorem hops_add_le (o o' : Offset) :
    (⟨o.dx + o'.dx, o.dy + o'.dy⟩ : Offset).hops ≤ o.hops + o'.hops := by
  obtain ⟨⟨hx, hy⟩, hd⟩ := hops_le_iff.1 (Nat.le_refl o.hops)
  obtain ⟨⟨hx', hy'⟩, hd'⟩ := hops_le_iff.1 (Nat.le_refl o'.hops)
  refine hops_le_iff.2 ⟨⟨?_, ?_⟩, ?_⟩ <;> dsimp only <;> omega

/-- The way back is as long as the way. -/
theorem hops_neg (o : Offset) : (⟨-o.dx, -o.dy⟩ : Offset).hops = o.hops := by
  have hd : (-o.dx - -o.dy).natAbs = (o.dx - o.dy).natAbs := by omega
  rw [hops_eq, hops_eq, Int.natAbs_neg, Int.natAbs_neg, hd]

/-- One link is one hop. -/
theorem hops_link (d : Direction) : (⟨d.vector.1, d.vector.2⟩ : Offset).hops = 1 := by
  cases d <;> rfl

/-- A number on the way from zero to another one. -/
def Within (k bound : Int) : Prop :=
  0 ≤ k ∧ k ≤ bound ∨ bound ≤ k ∧ k ≤ 0

/-- Going less far in both changes takes no more hops. -/
theorem hops_le_of_within (hx : Within o.dx o'.dx) (hy : Within o.dy o'.dy) :
    o.hops ≤ o'.hops := by
  obtain ⟨⟨hx', hy'⟩, hd'⟩ := hops_le_iff.1 (Nat.le_refl o'.hops)
  unfold Within at hx hy
  exact hops_le_iff.2 ⟨⟨by omega, by omega⟩, by omega⟩

end Offset

/-! ### The links of a vector -/

namespace HopVector

open Grid (linksOf)

/-- The links of a vector, axis by axis. -/
def links (v : HopVector) : List Direction :=
  v.components.flatMap fun a => List.replicate (runOf a).2 (runOf a).1

/-- The links of the runs of a vector, axis by axis. Axes without a change give no links, so nothing
is lost when they are filtered out. -/
theorem linksOf_runs (v : HopVector) :
    linksOf v.runs =
      (v.components.foldr insertRun []).flatMap fun a => List.replicate (runOf a).2 (runOf a).1 :=
  linksOf_filter _

/-- The runs of a vector have its links, in another order. -/
theorem linksOf_runs_perm (v : HopVector) : (linksOf v.runs).Perm v.links := by
  rw [linksOf_runs]
  exact (foldr_insertRun_perm _).flatMap_right _

/-- A vector has as many links as its length says, which is what the bounds on its three changes are
about. -/
@[simp] theorem length_links (v : HopVector) : v.links.length = v.length := by
  simp [links, components, runOf, length, Nat.add_assoc]

end HopVector

namespace Grid

variable {g : Grid} {a b c : Chip} {o : Offset} {hops : List Hop} {links : List Direction}

/-! ### Walks -/

/-- Hops that follow the links of a grid from one chip to another, whether they work or not. -/
def IsWalk (g : Grid) : Chip → List Hop → Chip → Prop
  | a, [], b => a = b
  | a, hop :: rest, b => g.step a hop.link = some hop.chip ∧ g.IsWalk hop.chip rest b

/-- A walk ends on the chip of its last hop. -/
theorem IsWalk.endOf_eq (h : g.IsWalk a hops b) : endOf a hops = b := by
  induction hops generalizing a with
  | nil => exact h
  | cons hop rest ih => rw [endOf_cons, ih h.2]

/-- The path over a row of links is a walk over these links. By induction on the links; that the
path is there says that each step stays on the grid. -/
theorem isWalk_of_hops (h : g.hops links a = .ok hops) :
    g.IsWalk a hops (endOf a hops) ∧ hops.map (·.link) = links := by
  induction links generalizing a hops with
  | nil =>
      obtain rfl := Except.ok.inj h
      exact ⟨rfl, rfl⟩
  | cons d links ih =>
      rw [Grid.hops] at h
      cases hstep : g.step a d with
      | none =>
          rw [hstep] at h
          contradiction
      | some next =>
          rw [hstep] at h
          obtain ⟨rest, hrest, hok⟩ := bind_eq_ok.1 h
          obtain rfl := Except.ok.inj hok
          obtain ⟨hwalk, hlinks⟩ := ih hrest
          rw [endOf_cons]
          exact ⟨⟨hstep, hwalk⟩, congrArg (d :: ·) hlinks⟩

/-- Where a walk leads depends on the sum of its links only. -/
theorem IsWalk.offset (h : g.IsWalk a hops b) (ha : g.contains a = true) :
    g.offset a (total (hops.map (·.link))) = some b := by
  induction hops generalizing a with
  | nil =>
      obtain rfl : a = b := h
      exact offset_zero ha
  | cons hop rest ih =>
      obtain ⟨hstep, hrest⟩ := h
      have hnext : g.contains hop.chip = true := (mem_offset ha hstep).1
      have hrest := ih hrest hnext
      rw [offset_offset ha hstep] at hrest
      rw [List.map_cons, total_cons]
      exact hrest

/-- Links lead over no more hops than there are links. -/
theorem hops_total_le (links : List Direction) : (total links).hops ≤ links.length := by
  induction links with
  | nil => exact Nat.le_refl 0
  | cons d rest ih =>
      rw [total_cons, List.length_cons, Nat.add_comm]
      calc (⟨d.vector.1 + (total rest).dx, d.vector.2 + (total rest).dy⟩ : Offset).hops
          ≤ (⟨d.vector.1, d.vector.2⟩ : Offset).hops + (total rest).hops :=
            Offset.hops_add_le ⟨d.vector.1, d.vector.2⟩ (total rest)
        _ ≤ 1 + rest.length := by
            rw [Offset.hops_link]
            exact Nat.add_le_add_left ih 1

end Grid

/-! ### No way round a torus is shorter -/

namespace HopVector.Approach

/-- The shortest approach is one of those compared, and none of them is shorter. By induction on the
approaches still to be compared. -/
theorem shortest_spec (first : Approach) (others : List Approach) :
    shortest first others ∈ first :: others ∧
      ∀ a ∈ first :: others, (shortest first others).hops ≤ a.hops := by
  induction others generalizing first with
  | nil => simp [shortest]
  | cons next rest ih =>
      -- The comparison goes on with the shorter one of the first two.
      obtain ⟨hmem, hle⟩ := ih (if next.hops < first.hops then next else first)
      obtain ⟨hbest, hrest⟩ := List.forall_mem_cons.1 hle
      change shortest first (next :: rest) ∈ _ at hmem
      change (shortest first (next :: rest)).hops ≤ _ at hbest
      change ∀ a ∈ rest, (shortest first (next :: rest)).hops ≤ a.hops at hrest
      refine ⟨?_, List.forall_mem_cons.2 ⟨?_, List.forall_mem_cons.2 ⟨?_, hrest⟩⟩⟩
      · rcases List.mem_cons.1 hmem with heq | hmem
        · rw [heq]
          split <;> simp
        · exact List.mem_cons_of_mem _ (List.mem_cons_of_mem _ hmem)
      · split at hbest <;> omega
      · split at hbest <;> omega

variable {width height : Nat} {x y : Int} {best a : Approach}

/-- The hops written with an approach are those of its changes. -/
theorem hops_of_mem_approaches (hx : 0 ≤ x ∧ x < width) (hy : 0 ≤ y ∧ y < height)
    (ha : a ∈ approaches width height x y) : a.hops = (⟨a.dx, a.dy⟩ : Offset).hops := by
  simp only [approaches, List.mem_cons, List.not_mem_nil, or_false] at ha
  rcases ha with rfl | rfl | rfl | rfl <;> rw [Offset.hops_eq] <;> dsimp only <;> omega

/-- Each side can be gone along straight or the other way round. -/
theorem exists_approach (width height : Nat) (x y : Int) {dx dy : Int}
    (hdx : dx = x ∨ dx = x - width) (hdy : dy = y ∨ dy = y - height) :
    ∃ a ∈ approaches width height x y, a.dx = dx ∧ a.dy = dy := by
  have hwest : -((width : Int) - x) = x - width := by omega
  have hsouth : -((height : Int) - y) = y - height := by omega
  rcases hdx with rfl | rfl <;> rcases hdy with rfl | rfl <;> simp [approaches, hwest, hsouth]

end HopVector.Approach

namespace Grid

variable {g : Grid} {a b c : Chip} {o : Offset} {hops : List Hop} {links : List Direction}

/-- Any change along a side can be turned back to less than once round, without turning it over. The
remainder is what is left of a change forwards; of a change backwards it is one turn too much. -/
theorem exists_turn (k : Int) {w : Nat} (hw : 0 < w) :
    ∃ k', (k' = k % w ∨ k' = k % w - w) ∧ Offset.Within k' k := by
  have hpos : 0 < (w : Int) := by omega
  have hnonneg := Int.emod_nonneg k (show (w : Int) ≠ 0 by omega)
  have hlt := Int.emod_lt_of_pos k hpos
  have hsplit := Int.emod_add_mul_ediv k w
  rcases Int.lt_or_le k 0 with hneg | hk
  · -- Going backwards there is at least one turn, which is given back.
    have hturns : (w : Int) * (k / w) ≤ w * -1 :=
      Int.mul_le_mul_of_nonneg_left (Int.le_sub_one_of_lt (Int.ediv_neg_of_neg_of_pos hneg hpos))
        (by omega)
    exact ⟨k % w - w, .inr rfl, .inr ⟨by omega, by omega⟩⟩
  · -- Going forwards, what is left after the full turns is no more than there was.
    have hturns : 0 ≤ (w : Int) * (k / w) :=
      Int.mul_nonneg (by omega) (Int.ediv_nonneg hk (by omega))
    exact ⟨k % w, .inl rfl, .inl ⟨hnonneg, by omega⟩⟩

/-- The change that leads along a side is known up to full turns. -/
theorem emod_of_emod {p k q : Int} {w : Nat} (h : (p + k) % w = q) : (q - p) % w = k % w := by
  rw [← h, Int.emod_sub_emod, show p + k - p = k by omega]

/-- Whatever leads to the target on a torus takes no fewer hops than the way chosen. The offset is
taken back to less than one turn along each side, which makes it no longer, and the four offsets
this leaves are those that were compared. -/
theorem around_le (hw : g.wraps = true) (ha : g.contains a = true) (h : g.offset a o = some b) :
    (HopVector.around a b g.width g.height).length ≤ o.hops := by
  obtain ⟨hax, hay⟩ := contains_iff.1 ha
  -- The change of column and row is known up to full turns; take both back to one turn or none.
  unfold offset at h
  simp only [hw, if_true, Option.some.injEq] at h
  have hx : ((b.x : Int) - a.x) % g.width = o.dx % g.width := by
    refine emod_of_emod ?_
    rw [← h]
    exact (Int.toNat_of_nonneg (Int.emod_nonneg _ (by omega))).symm
  have hy : ((b.y : Int) - a.y) % g.height = o.dy % g.height := by
    refine emod_of_emod ?_
    rw [← h]
    exact (Int.toNat_of_nonneg (Int.emod_nonneg _ (by omega))).symm
  obtain ⟨dx, hdx, hxin⟩ := exists_turn o.dx (show 0 < g.width by omega)
  obtain ⟨dy, hdy, hyin⟩ := exists_turn o.dy (show 0 < g.height by omega)
  have hxlt := Int.emod_lt_of_pos o.dx (show 0 < (g.width : Int) by omega)
  have hylt := Int.emod_lt_of_pos o.dy (show 0 < (g.height : Int) by omega)
  have hxnonneg := Int.emod_nonneg o.dx (show (g.width : Int) ≠ 0 by omega)
  have hynonneg := Int.emod_nonneg o.dy (show (g.height : Int) ≠ 0 by omega)
  unfold HopVector.around HopVector.wayRound
  rw [hx, hy]
  generalize o.dx % (g.width : Int) = x at *
  generalize o.dy % (g.height : Int) = y at *
  -- That is one of the ways compared, so it is not shorter than the way chosen.
  obtain ⟨way, hway, rfl, rfl⟩ := HopVector.Approach.exists_approach g.width g.height x y hdx hdy
  obtain ⟨hmem, hle⟩ := HopVector.Approach.shortest_spec ⟨max x y, x, y⟩
    (HopVector.approaches g.width g.height x y)
  have hmem := List.forall_mem_cons.2 ⟨List.mem_cons_self .., fun _ => id⟩ _ hmem
  have hle := hle way (List.mem_cons_of_mem _ hway)
  rw [HopVector.Approach.hops_of_mem_approaches ⟨hxnonneg, hxlt⟩ ⟨hynonneg, hylt⟩ hway,
    HopVector.Approach.hops_of_mem_approaches ⟨hxnonneg, hxlt⟩ ⟨hynonneg, hylt⟩ hmem] at hle
  exact (Int.ofNat_le.1 hle).trans (Offset.hops_le_of_within hxin hyin)

/-! ### The distance -/

/-- The vector between two chips makes an offset that leads from one to the other. -/
theorem exists_offset_hops (ha : g.contains a = true) (hb : g.contains b = true) :
    ∃ o, g.offset a o = some b ∧ o.hops = g.distance a b := by
  obtain ⟨o, hv, ho, -⟩ := vector_spec ha hb
  refine ⟨o, ho, ?_⟩
  rw [distance, hv]
  rfl

/-- No offset that leads from one chip to another has fewer hops than their distance. On a mesh
there is one offset between two chips; on a torus this is `around_le`. -/
theorem distance_le_hops (ha : g.contains a = true) (h : g.offset a o = some b) :
    g.distance a b ≤ o.hops := by
  unfold distance vector
  split
  · next hw => exact around_le hw ha h
  · next hw =>
    -- Without wrapping only one offset leads there.
    unfold offset at h
    rw [if_neg hw] at h
    split at h
    · obtain rfl := Option.some.inj h
      refine Nat.le_of_eq (congrArg HopVector.length (congrArg₂ HopVector.ofOffset ?_ ?_))
      · show (((a.x : Int) + o.dx).toNat : Int) - a.x = o.dx
        omega
      · show (((a.y : Int) + o.dy).toNat : Int) - a.y = o.dy
        omega
    · contradiction

/-- No walk is shorter than the distance. -/
theorem IsWalk.distance_le (h : g.IsWalk a hops b) (ha : g.contains a = true) :
    g.distance a b ≤ hops.length := by
  calc g.distance a b
      ≤ (total (hops.map (·.link))).hops := distance_le_hops ha (h.offset ha)
    _ ≤ (hops.map (·.link)).length := hops_total_le _
    _ = hops.length := List.length_map ..

/-- The links of the vector between two chips make a walk in whatever order they are taken. -/
theorem exists_walk (ha : g.contains a = true) (hb : g.contains b = true)
    (hperm : links.Perm (g.vector a b).links) :
    ∃ hops, g.IsWalk a hops b ∧ hops.map (·.link) = links := by
  obtain ⟨hops, hok, hend, -⟩ :=
    hops_of_perm ha hb (hperm.trans (HopVector.linksOf_runs_perm _).symm)
  obtain ⟨hwalk, hlinks⟩ := isWalk_of_hops hok
  exact ⟨hops, hend ▸ hwalk, hlinks⟩

/-- Only a chip of the grid itself is at distance zero. Some offset with as many hops as the
distance leads there, and the only one of none is zero. -/
theorem distance_eq_zero (ha : g.contains a = true) (hb : g.contains b = true) :
    g.distance a b = 0 ↔ a = b := by
  constructor
  · intro hzero
    obtain ⟨o, ho, heq⟩ := exists_offset_hops ha hb
    rw [Offset.hops_eq_zero.1 (heq.trans hzero), offset_zero ha] at ho
    exact Option.some.inj ho
  · rintro rfl
    exact Nat.le_zero.1 (distance_le_hops ha (offset_zero ha))

/-- Any walk to a chip gives one back over the opposite links, so the distance back is no more. -/
theorem distance_comm_le (ha : g.contains a = true) (hb : g.contains b = true) :
    g.distance b a ≤ g.distance a b := by
  obtain ⟨o, ho, heq⟩ := exists_offset_hops ha hb
  rw [← heq, ← Offset.hops_neg]
  exact distance_le_hops hb (mem_offset ha ho).2

/-- The distance between two chips of the grid is the same both ways, although the vectors need not
be opposite where ways tie. -/
theorem distance_comm (ha : g.contains a = true) (hb : g.contains b = true) :
    g.distance a b = g.distance b a :=
  Nat.le_antisymm (distance_comm_le hb ha) (distance_comm_le ha hb)

/-- The two shortest walks one after the other are a walk, and no walk is shorter than the distance. -/
theorem distance_triangle (ha : g.contains a = true) (hb : g.contains b = true)
    (hc : g.contains c = true) : g.distance a c ≤ g.distance a b + g.distance b c := by
  obtain ⟨o, ho, heq⟩ := exists_offset_hops ha hb
  obtain ⟨o', ho', heq'⟩ := exists_offset_hops hb hc
  rw [offset_offset ha ho] at ho'
  rw [← heq, ← heq']
  exact (distance_le_hops ha ho').trans (Offset.hops_add_le o o')

/-- The distance of two chips of a grid is the length of a shortest walk from one to the other, and
the links of the vector between them make such a walk in whatever order they are taken. So the
distance is the same both ways and no way over a third chip is shorter. -/
theorem distance_least (g : Grid) (a b : Chip) (ha : g.contains a = true)
    (hb : g.contains b = true) :
    IsLeast {n | ∃ hops, g.IsWalk a hops b ∧ hops.length = n} (g.distance a b) ∧
      (∀ links, links.Perm (g.vector a b).links →
        ∃ hops, g.IsWalk a hops b ∧ hops.map (·.link) = links) ∧
      g.distance a b = g.distance b a ∧
      ∀ c, g.contains c = true → g.distance a c ≤ g.distance a b + g.distance b c := by
  refine ⟨⟨?_, ?_⟩, fun links => exists_walk ha hb, distance_comm ha hb,
    fun c => distance_triangle ha hb⟩
  · obtain ⟨hops, hwalk, hlinks⟩ := exists_walk ha hb (.refl _)
    refine ⟨hops, hwalk, ?_⟩
    rw [← List.length_map (·.link), hlinks, HopVector.length_links]
    rfl
  · rintro n ⟨hops, hwalk, rfl⟩
    exact hwalk.distance_le ha

/-- A torus two chips wide. -/
def slimTorus : Grid := { width := 2, height := 5, wraps := true }

/-- Round both sides it is two hops to a chip one column and three rows on, and nothing is
shorter. -/
theorem slimTorus_distance :
    slimTorus.contains ⟨0, 0⟩ = true ∧ slimTorus.contains ⟨1, 3⟩ = true ∧
      IsLeast {n | ∃ hops, slimTorus.IsWalk ⟨0, 0⟩ hops ⟨1, 3⟩ ∧ hops.length = n} 2 ∧
      slimTorus.vector ⟨0, 0⟩ ⟨1, 3⟩ = ⟨0, -1, 1⟩ := by
  have hsource : slimTorus.contains ⟨0, 0⟩ = true := by decide
  have htarget : slimTorus.contains ⟨1, 3⟩ = true := by decide
  exact ⟨hsource, htarget, (distance_least slimTorus ⟨0, 0⟩ ⟨1, 3⟩ hsource htarget).1,
    by decide⟩

end Grid

end Multicast
