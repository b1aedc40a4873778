import Multicast.Growth.Anchor
import Multicast.Proofs.Geometry.Ring

/-!
# `Multicast.Proofs.Growth.Anchor`: where a branch starts

An anchor found is a nearest chip of the tree, whichever way it is looked for
(`find_nearest`, and with the case that there is none `find_least`). A scan keeps the
best candidate of the chips seen so far (`Kept`). A probe meets the offsets around the
sink by their hops, and some offset with as many hops as the distance leads to each
chip, so what it meets first is as near as anything.

Cutting a path behind its last chip of the tree leaves the rest of the path from there
(`truncate_split`): a branch that starts on the tree, does not touch it again and still
leads to the end of the path (`truncate_spec`).
-/

set_option autoImplicit false

namespace Multicast.Anchor

open Grid (endOf)

variable {g : Grid} {index : ChipIndex} {sink a c : Chip} {radius : Nat} {chips seen : List Chip}
  {best : Option Candidate}

/-! ### The nearest chip -/

/-- What a search for an anchor among some chips has to answer: one of the nearest of them, if it
is within the radius. -/
def IsNearest (g : Grid) (sink : Chip) (radius : Nat) (chips : List Chip) : Option Chip → Prop
  | none => ∀ c ∈ chips, radius < g.distance c sink
  | some a => a ∈ chips ∧ g.distance a sink ≤ radius ∧
      ∀ c ∈ chips, g.distance a sink ≤ g.distance c sink

/-- The candidate kept is a nearest one of the chips seen, and its distance is right. -/
structure Kept (g : Grid) (sink : Chip) (radius : Nat) (seen : List Chip)
    (best : Option Candidate) : Prop where
  distance : ∀ b ∈ best, b.distance = g.distance b.chip sink
  nearest : IsNearest g sink radius seen (best.map (·.chip))

/-- To consider one chip more keeps the nearest. The chip takes the place of the candidate only if
it is strictly nearer, so that of equals the first one stays; one beyond the radius changes nothing,
but is no nearer than the candidate either. -/
theorem Kept.consider (h : Kept g sink radius seen best) (c : Chip) :
    Kept g sink radius (seen ++ [c]) (consider g sink radius best c) := by
  obtain ⟨hdistance, hnearest⟩ := h
  have hmem : c ∈ seen ++ [c] := by simp
  have hleft : ∀ b ∈ seen, b ∈ seen ++ [c] := fun b hb => List.mem_append_left _ hb
  have hsnoc : ∀ {p : Chip → Prop}, (∀ b ∈ seen, p b) → p c → ∀ b ∈ seen ++ [c], p b := by
    intro p hseen hc
    simpa [or_imp, forall_and] using And.intro hseen hc
  unfold Anchor.consider
  dsimp only
  split
  · next hle =>
    cases best with
    | none =>
        -- All before it are beyond the radius, which it is not.
        exact ⟨by simp, hmem, hle, hsnoc (fun b hb => hle.trans (hnearest b hb).le) (Nat.le_refl _)⟩
    | some b =>
        have hb : b.distance = g.distance b.chip sink := hdistance b rfl
        obtain ⟨hin, hwithin, hmin⟩ := hnearest
        show Kept g sink radius _ (if g.distance c sink < b.distance then _ else _)
        rw [hb]
        split
        · next hlt =>
          exact ⟨by simp, hmem, hle, hsnoc (fun x hx => hlt.le.trans (hmin x hx)) (Nat.le_refl _)⟩
        · next hge =>
          exact ⟨hdistance, hleft _ hin, hwithin, hsnoc hmin (Nat.le_of_not_lt hge)⟩
  · next hfar =>
    refine ⟨hdistance, ?_⟩
    cases best with
    | none => exact hsnoc hnearest (Nat.lt_of_not_le hfar)
    | some b =>
        obtain ⟨hin, hwithin, hmin⟩ := hnearest
        exact ⟨hleft _ hin, hwithin, hsnoc hmin (hwithin.trans (Nat.lt_of_not_le hfar).le)⟩

/-- The step lemma over a whole scan. -/
theorem Kept.foldl (h : Kept g sink radius seen best) (chips : List Chip) :
    Kept g sink radius (seen ++ chips) (chips.foldl (Anchor.consider g sink radius) best) := by
  induction chips generalizing seen best with
  | nil => rwa [List.append_nil]
  | cons c chips ih =>
      have hrest := ih (h.consider c)
      rwa [List.append_assoc] at hrest

/-- A scan answers with a nearest chip within the radius, or with none if all are beyond it. -/
theorem scan_nearest (g : Grid) (sink : Chip) (radius : Nat) (chips : List Chip) :
    IsNearest g sink radius chips (scan g chips sink radius) := by
  have hstart : Kept g sink radius [] none := ⟨by simp, by simp [IsNearest]⟩
  exact (hstart.foldl chips).nearest

/-- A probe meets each chip of a tree on the grid at its distance, and the nearer ones first. Rings
are asked from the middle outwards, and on each the offsets in order. A chip of the tree within the
radius is met on the ring of its distance, since some offset with as many hops leads there. Hence
the first one met is a nearest one, and where none is met all are beyond the radius. -/
theorem probe_nearest (hin : ∀ c, index.contains c = true → g.contains c = true)
    (hsink : g.contains sink = true) (radius : Nat) :
    IsNearest g sink radius index.chips (probe g index sink radius) := by
  -- An offset that leads to a chip of the tree, with as many hops as its distance.
  have hmeets : ∀ c ∈ index.chips, ∃ o,
      (g.offset sink o).filter index.contains = some c ∧ o.hops = g.distance c sink := by
    intro c hc
    have hc := ChipIndex.mem_chips.1 hc
    obtain ⟨o, ho, heq⟩ := Grid.exists_offset_hops hsink (hin c hc)
    exact ⟨o, by simp [ho, hc], heq.trans (Grid.distance_comm hsink (hin c hc))⟩
  rw [probe, Ring.ask_eq]
  cases hfirst : (Ring.disc radius).findSome? fun o => (g.offset sink o).filter index.contains with
  | none =>
      intro c hc
      obtain ⟨o, ho, heq⟩ := hmeets c hc
      rw [← heq]
      refine Nat.lt_of_not_le fun hle => ?_
      rw [List.findSome?_eq_none_iff.1 hfirst o (Ring.mem_disc.2 hle)] at ho
      contradiction
  | some a =>
      obtain ⟨before, o, after, hdisc, ho, hbefore⟩ := List.findSome?_eq_some_iff.1 hfirst
      obtain ⟨hoffset, ha⟩ := Option.filter_eq_some_iff.1 ho
      have hle : g.distance a sink ≤ o.hops := by
        rw [← Grid.distance_comm hsink (hin a ha)]
        exact Grid.distance_le_hops hsink hoffset
      have hwithin : o.hops ≤ radius := Ring.mem_disc.1 (by simp [hdisc])
      refine ⟨ChipIndex.mem_chips.2 ha, hle.trans hwithin, fun c hc => hle.trans ?_⟩
      -- What leads to another chip stands behind the first answer, or outside the disc.
      obtain ⟨o', ho', heq⟩ := hmeets c hc
      rw [← heq]
      by_cases hmem : o' ∈ Ring.disc radius
      · have hsorted := Ring.pairwise_disc radius
        rw [hdisc, List.pairwise_append] at hsorted
        rw [hdisc, List.mem_append, List.mem_cons] at hmem
        rcases hmem with hmem | rfl | hmem
        · rw [hbefore o' hmem] at ho'
          contradiction
        · exact Nat.le_refl _
        · exact (List.pairwise_cons.1 hsorted.2.1).1 o' hmem
      · rw [Ring.mem_disc] at hmem
        omega

/-- Both ways of looking for an anchor find a nearest chip of a tree on the grid. -/
theorem find_nearest (hin : ∀ c, index.contains c = true → g.contains c = true)
    (hsink : g.contains sink = true) (radius : Nat) :
    IsNearest g sink radius index.chips (find g index sink radius) := by
  unfold find
  split
  · exact scan_nearest g sink radius index.chips
  · exact probe_nearest hin hsink radius

/-- Two answers to the same search are as near as each other. -/
theorem IsNearest.distance_eq {r r' : Option Chip} (h : IsNearest g sink radius chips r)
    (h' : IsNearest g sink radius chips r') :
    r.map (g.distance · sink) = r'.map (g.distance · sink) := by
  -- A chip within the radius is no answer where none is found.
  have hnone : ∀ {a}, IsNearest g sink radius chips none →
      ¬ IsNearest g sink radius chips (some a) := fun {a} hfar hnear =>
    absurd (hfar a hnear.1) (Nat.not_lt_of_le hnear.2.1)
  cases r with
  | none =>
      cases r' with
      | none => rfl
      | some a' => exact absurd h' (hnone h)
  | some a =>
      cases r' with
      | none => exact absurd h (hnone h')
      | some a' => exact congrArg some (Nat.le_antisymm (h.2.2 a' h'.1) (h'.2.2 a h.1))

/-- The search for an anchor finds none just if no chip of the tree is within the radius, and
otherwise a chip of the tree with no other one nearer. A scan of the tree and a probe of the rings
find chips at the same distance, so it matters little which of the two is made. -/
theorem find_least (g : Grid) (index : ChipIndex) (sink : Chip) (radius : Nat)
    (hin : ∀ c, index.contains c = true → g.contains c = true) (hsink : g.contains sink = true) :
    (find g index sink radius = none ↔
        ∀ c, index.contains c = true → radius < g.distance c sink) ∧
      (∀ a, find g index sink radius = some a →
        index.contains a = true ∧ g.distance a sink ≤ radius ∧
          ∀ c, index.contains c = true → g.distance a sink ≤ g.distance c sink) ∧
      (scan g index.chips sink radius).map (g.distance · sink) =
        (probe g index sink radius).map (g.distance · sink) := by
  have hnearest := find_nearest hin hsink radius
  have hsome : ∀ a, find g index sink radius = some a →
      index.contains a = true ∧ g.distance a sink ≤ radius ∧
        ∀ c, index.contains c = true → g.distance a sink ≤ g.distance c sink := by
    intro a ha
    rw [ha] at hnearest
    obtain ⟨hmem, hwithin, hmin⟩ := hnearest
    exact ⟨ChipIndex.mem_chips.1 hmem, hwithin, fun c hc => hmin c (ChipIndex.mem_chips.2 hc)⟩
  refine ⟨⟨fun hnone c hc => ?_, fun hfar => ?_⟩, hsome,
    (scan_nearest g sink radius index.chips).distance_eq (probe_nearest hin hsink radius)⟩
  · rw [hnone] at hnearest
    exact hnearest c (ChipIndex.mem_chips.2 hc)
  · refine Option.eq_none_iff_forall_ne_some.2 fun a ha => ?_
    obtain ⟨hmem, hwithin, -⟩ := hsome a ha
    exact absurd (hfar a hmem) (Nat.not_lt_of_le hwithin)

/-- The chips above and below the corner of a slim torus, in this order. -/
def aboveAndBelow : ChipIndex :=
  (ChipIndex.empty.set ⟨0, 1⟩ 0).set ⟨0, 4⟩ 1

/-- A tree of two chips is probed for the radius one and scanned for the radius two. The two find
different chips, and neither chip is nearer than the other. -/
theorem aboveAndBelow_least :
    (∀ c, aboveAndBelow.contains c = true → Grid.slimTorus.contains c = true) ∧
      Grid.slimTorus.contains ⟨0, 0⟩ = true ∧
      find Grid.slimTorus aboveAndBelow ⟨0, 0⟩ 1 = some ⟨0, 4⟩ ∧
      find Grid.slimTorus aboveAndBelow ⟨0, 0⟩ 2 = some ⟨0, 1⟩ ∧
      (∀ c, aboveAndBelow.contains c = true →
        Grid.slimTorus.distance ⟨0, 4⟩ ⟨0, 0⟩ ≤ Grid.slimTorus.distance c ⟨0, 0⟩) ∧
      ∀ c, aboveAndBelow.contains c = true →
        Grid.slimTorus.distance ⟨0, 1⟩ ⟨0, 0⟩ ≤ Grid.slimTorus.distance c ⟨0, 0⟩ := by
  have hin : ∀ c, aboveAndBelow.contains c = true → Grid.slimTorus.contains c = true := by
    intro c hc
    rw [← ChipIndex.mem_chips] at hc
    have hall : ∀ c ∈ aboveAndBelow.chips, Grid.slimTorus.contains c = true := by decide +kernel
    exact hall c hc
  have hsink : Grid.slimTorus.contains ⟨0, 0⟩ = true := by decide
  have hprobe : find Grid.slimTorus aboveAndBelow ⟨0, 0⟩ 1 = some ⟨0, 4⟩ := by decide +kernel
  have hscan : find Grid.slimTorus aboveAndBelow ⟨0, 0⟩ 2 = some ⟨0, 1⟩ := by decide +kernel
  obtain ⟨-, hnear, -⟩ := find_least Grid.slimTorus aboveAndBelow ⟨0, 0⟩ 1 hin hsink
  obtain ⟨-, hnear', -⟩ := find_least Grid.slimTorus aboveAndBelow ⟨0, 0⟩ 2 hin hsink
  exact ⟨hin, hsink, hprobe, hscan, (hnear _ hprobe).2.2, (hnear' _ hscan).2.2⟩

/-! ### The part of a path behind the tree -/

/-- A path of two parts ends where the second does, from the end of the first. -/
theorem endOf_append (a : Chip) (xs ys : List Hop) :
    endOf a (xs ++ ys) = endOf (endOf a xs) ys := by
  induction xs generalizing a with
  | nil => rfl
  | cons hop xs ih => rw [List.cons_append, Grid.endOf_cons, Grid.endOf_cons, ih]

/-- The best branch is continued by the hops still to be looked at, and none of those passed over
since it started lands inside. So what is kept in the end starts behind some of the hops, where
these lead, and does not land inside any more. -/
theorem behindLast_spec (inside : Chip → Bool) (best : Branch) {hops : List Hop}
    (passed : List Hop)
    (hbest : best.hops = passed ++ hops) (hpassed : ∀ hop ∈ passed, inside hop.chip = false) :
    let branch := behindLast inside best hops
    (inside best.anchor = true → inside branch.anchor = true) ∧
      (∀ hop ∈ branch.hops, inside hop.chip = false) ∧
      ∃ skipped, best.hops = skipped ++ branch.hops ∧
        endOf best.anchor skipped = branch.anchor := by
  -- On the hops still to be looked at; what is known of the best branch is how it starts.
  induction hops generalizing best passed with
  | nil =>
      rw [List.append_nil] at hbest
      exact ⟨id, hbest ▸ hpassed, [], rfl, rfl⟩
  | cons hop rest ih =>
      have hsplit : best.hops = (passed ++ [hop]) ++ rest := by simp [hbest]
      rw [behindLast]
      split
      · next hin =>
        -- The branch starts again here, with nothing passed over yet.
        obtain ⟨hanchor, hout, skipped, hrest, hend⟩ :=
          ih ⟨hop.chip, rest⟩ [] rfl (by simp)
        refine ⟨fun _ => hanchor hin, hout, passed ++ [hop] ++ skipped, ?_, ?_⟩
        · rw [hsplit, List.append_assoc _ skipped, ← hrest]
        · rw [endOf_append, endOf_append, ← hend]
          rfl
      · next hin =>
        refine ih best (passed ++ [hop]) hsplit fun x hx => ?_
        rcases List.mem_append.1 hx with hx | hx
        · exact hpassed x hx
        · simpa [List.mem_singleton.1 hx] using hin

/-- Truncating a path skips some hops, and the branch starts where they lead. -/
theorem truncate_split (inside : Chip → Bool) (anchor : Chip) (hops : List Hop) :
    ∃ skipped, hops = skipped ++ (truncate inside anchor hops).hops ∧
      endOf anchor skipped = (truncate inside anchor hops).anchor :=
  (behindLast_spec inside ⟨anchor, hops⟩ [] (List.nil_append _) (by simp)).2.2

/-- A truncated path starts inside, stays outside after that and ends where the path does. -/
theorem truncate_spec (inside : Chip → Bool) {anchor : Chip} (hops : List Hop)
    (hanchor : inside anchor = true) :
    inside (truncate inside anchor hops).anchor = true ∧
      (truncate inside anchor hops).hops <:+ hops ∧
      (∀ hop ∈ (truncate inside anchor hops).hops, inside hop.chip = false) ∧
      endOf (truncate inside anchor hops).anchor (truncate inside anchor hops).hops =
        endOf anchor hops := by
  obtain ⟨hin, hout, -⟩ := behindLast_spec inside ⟨anchor, hops⟩ [] (List.nil_append _) (by simp)
  obtain ⟨skipped, hsplit, hend⟩ := truncate_split inside anchor hops
  refine ⟨hin hanchor, ⟨skipped, hsplit.symm⟩, hout, ?_⟩
  rw [← hend, ← endOf_append, ← hsplit]

end Multicast.Anchor
