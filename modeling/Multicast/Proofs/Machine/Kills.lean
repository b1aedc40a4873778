import Multicast.Machine.Basic
import Multicast.Proofs.Machine.Paths
import Multicast.RouteError

/-!
# `Multicast.Proofs.Machine.Kills`: what works is what was not killed

A fabric is built intact or from a written description, and then chips and links of it are
killed one after another. `Built` keeps the list of everything killed, the chips and links
that the description lists as down included.

The fabric itself keeps less: a chip that was killed, and for a link that was killed its
two directions, each as a port. `Records` says so, and every kill keeps it (`Records.kill`).
A port is therefore dead if its own link was killed, or the link that leads to it over the
same wire. As the opposite link leads back on every grid, round a torus too, that link is
the opposite one of the chip the port leads to (`Records.dead_iff`). All of `isLink_exact`
is read off this: the two directions of a wire work together, only what was killed counts,
and a kill changes nothing but the links it hits.
-/

set_option autoImplicit false

namespace Multicast

/-- A chip or a link that is killed. -/
inductive Kill where
  | chip (c : Chip)
  | link (c : Chip) (d : Direction)
deriving DecidableEq

namespace Kill

/-- The chip killed, or the one that the link leaves. -/
def place : Kill → Chip
  | chip c => c
  | link c _ => c

/-- The links that stop working: those of a chip and those that lead to it, or the two directions
of a wire. -/
def Hits (g : Grid) : Kill → Chip → Direction → Prop
  | chip c, a, d => a = c ∨ g.step a d = some c
  | link c e, a, d => (a = c ∧ d = e) ∨ (g.step c e = some a ∧ d = e.opposite)

/-- The links among those listed as down, by their numbers. -/
def ofDownLinks (downLinks : List DownLink) : List Kill :=
  downLinks.filterMap fun l => (Direction.ofLinkId? l.link).map (link l.chip)

/-- What a written description lists as down. -/
def ofSettings {ν : Type} (s : MachineSettings ν) : List Kill :=
  s.downChips.map chip ++ ofDownLinks s.downLinks

end Kill

namespace Fabric

/-- Records a kill. -/
def kill (f : Fabric) : Kill → Fabric
  | .chip c => f.killChip c
  | .link c d => f.killLink c d

/-- A fabric with everything that was killed on the way to it. -/
inductive Built : Fabric → List Kill → Prop
  | intact (g : Grid) : Built (.intact g) []
  | ofSettings {ν : Type} {s : MachineSettings ν} {m : Machine ν}
      (h : Machine.ofSettings s = .ok m) : Built m.toFabric (Kill.ofSettings s)
  | kill {f : Fabric} {kills : List Kill} (h : Built f kills) (k : Kill)
      (hk : f.contains k.place = true) : Built (f.kill k) (kills ++ [k])

variable {f f' : Fabric} {kills kills' : List Kill} {a b c : Chip} {d e : Direction} {k : Kill}

/-- A kill changes what is dead, not the grid. -/
@[simp] theorem toGrid_kill (f : Fabric) (k : Kill) : (f.kill k).toGrid = f.toGrid := by
  cases k with
  | chip c => rfl
  | link c d =>
      rw [kill, killLink]
      split <;> rfl

/-! ### What a fabric keeps of the kills -/

/-- A port is dead by a kill of its own link, or of the link that leads to it over its wire. -/
def DeadBy (g : Grid) (kills : List Kill) (a : Chip) (d : Direction) : Prop :=
  .link a d ∈ kills ∨ ∃ c e, .link c e ∈ kills ∧ g.step c e = some a ∧ d = e.opposite

/-- The dead chips and the dead ports of a fabric are those of the kills, all of them on its
grid. -/
structure Records (f : Fabric) (kills : List Kill) : Prop where
  inside : ∀ k ∈ kills, f.contains k.place = true
  chips : ∀ c, c ∈ f.deadChips ↔ .chip c ∈ kills
  links : ∀ a d, ⟨a, d⟩ ∈ f.deadLinks ↔ DeadBy f.toGrid kills a d

/-- Nothing is dead before the first kill. -/
theorem records_intact (g : Grid) : (intact g).Records [] where
  inside := by simp
  chips c := by simp [intact]
  links a d := by simp [intact, DeadBy]

/-- The kill of a link adds two ports at most, its own and the one at the other end of the wire. The
second is missing where the link leads off the grid. A port that is dead already stays so. -/
theorem mem_deadLinks_killLink : ⟨a, d⟩ ∈ (f.killLink c e).deadLinks ↔
    ⟨a, d⟩ ∈ f.deadLinks ∨ (a = c ∧ d = e) ∨ (f.step c e = some a ∧ d = e.opposite) := by
  have hinsert : ∀ (ports : Std.ExtTreeSet Port) (p q : Port), q ∈ ports.insert p ↔
      q ∈ ports ∨ q = p := by
    intro ports p q
    rw [Std.ExtTreeSet.mem_insert, Std.LawfulEqOrd.compare_eq_iff_eq, or_comm, @eq_comm _ p]
  rw [killLink]
  cases hstep : f.step c e with
  | none => simp [killLinkOneWay, hinsert]
  | some n => simp [killLinkOneWay, hinsert, or_assoc, @eq_comm _ n]

/-- The ports dead by one more kill of a link are the same two, so that both sides of
`Records.links` grow alike. -/
theorem deadBy_append : DeadBy f.toGrid (kills ++ [.link c e]) a d ↔
    DeadBy f.toGrid kills a d ∨ (a = c ∧ d = e) ∨ (f.step c e = some a ∧ d = e.opposite) := by
  simp only [DeadBy, List.mem_append, List.mem_singleton, Kill.link.injEq]
  constructor
  · rintro ((h | h) | ⟨c', e', h | ⟨rfl, rfl⟩, hstep, hd⟩)
    · exact .inl (.inl h)
    · exact .inr (.inl h)
    · exact .inl (.inr ⟨c', e', h, hstep, hd⟩)
    · exact .inr (.inr ⟨hstep, hd⟩)
  · rintro ((h | ⟨c', e', h, hstep, hd⟩) | h | ⟨hstep, hd⟩)
    · exact .inl (.inl h)
    · exact .inr ⟨c', e', .inl h, hstep, hd⟩
    · exact .inl (.inr h)
    · exact .inr ⟨c, e, .inr ⟨rfl, rfl⟩, hstep, hd⟩

/-- A kill on the grid is recorded. -/
theorem Records.kill (h : f.Records kills) (hk : f.contains k.place = true) :
    (f.kill k).Records (kills ++ [k]) where
  inside x hx := by
    rw [toGrid_kill]
    rcases List.mem_append.1 hx with hx | hx
    · exact h.inside x hx
    · rwa [List.mem_singleton.1 hx]
  chips c := by
    cases k with
    | chip c' =>
        show c ∈ f.deadChips.insert c' ↔ _
        rw [Std.ExtTreeSet.mem_insert, Std.LawfulEqOrd.compare_eq_iff_eq, h.chips, List.mem_append,
          List.mem_singleton, Kill.chip.injEq, or_comm, @eq_comm _ c']
    | link c' d =>
        have hsame : (f.kill (.link c' d)).deadChips = f.deadChips := by
          rw [Fabric.kill, killLink]
          split <;> rfl
        rw [hsame, h.chips]
        simp
  links a d := by
    rw [toGrid_kill]
    cases k with
    | chip c =>
        show ⟨a, d⟩ ∈ f.deadLinks ↔ _
        rw [h.links]
        simp [DeadBy]
    | link c e =>
        show ⟨a, d⟩ ∈ (f.killLink c e).deadLinks ↔ _
        rw [mem_deadLinks_killLink, deadBy_append, h.links]

/-- The step lemma over a list of chips, up to the first error. -/
theorem Records.killChips {chips : List Chip} (h : f.Records kills)
    (hok : f.killChips chips = .ok f') : f'.Records (kills ++ chips.map .chip) := by
  induction chips generalizing f kills with
  | nil =>
      obtain rfl := Except.ok.inj hok
      simpa using h
  | cons c rest ih =>
      rw [Fabric.killChips] at hok
      split at hok
      · next hin =>
        have hrest := ih (h.kill (k := .chip c) hin) hok
        rwa [List.append_assoc] at hrest
      · contradiction

/-- The step lemma over a list of links that are down, up to the first one whose chip is off the
grid or whose number is not that of a link. Each of the others is one kill, which takes the port at
its other end along. -/
theorem Records.killLinks {downLinks : List DownLink} (h : f.Records kills)
    (hok : f.killLinks downLinks = .ok f') : f'.Records (kills ++ Kill.ofDownLinks downLinks) := by
  induction downLinks generalizing f kills with
  | nil =>
      obtain rfl := Except.ok.inj hok
      simpa [Kill.ofDownLinks] using h
  | cons l rest ih =>
      rw [Fabric.killLinks] at hok
      split at hok
      · next hin =>
        cases hd : Direction.ofLinkId? l.link with
        | none =>
            rw [hd] at hok
            contradiction
        | some d =>
            rw [hd] at hok
            have hrest := ih (h.kill (k := .link l.chip d) hin) hok
            have hcons : Kill.ofDownLinks (l :: rest) =
                [.link l.chip d] ++ Kill.ofDownLinks rest := by
              simp [Kill.ofDownLinks, hd]
            rwa [List.append_assoc, ← hcons] at hrest
      · contradiction

/-- However a fabric was built, it keeps the kills. -/
theorem Built.records (h : f.Built kills) : f.Records kills := by
  induction h with
  | intact g => exact records_intact g
  | @ofSettings ν s m h =>
      rw [Machine.ofSettings] at h
      split at h
      · contradiction
      · obtain ⟨withChips, hchips, h⟩ := bind_eq_ok.1 h
        obtain ⟨withLinks, hlinks, h⟩ := bind_eq_ok.1 h
        obtain rfl := Except.ok.inj h
        exact ((records_intact _).killChips hchips).killLinks hlinks
  | kill _ k hk ih => exact ih.kill hk

/-! ### Which links work -/

namespace Records

/-- A port is dead if the link at one end of its wire was killed. -/
theorem dead_iff (h : f.Records kills) (ha : f.contains a = true) (hstep : f.step a d = some b) :
    ⟨a, d⟩ ∈ f.deadLinks ↔ .link a d ∈ kills ∨ .link b d.opposite ∈ kills := by
  obtain ⟨-, hback⟩ := Grid.step_opposite ha hstep
  rw [h.links]
  refine or_congr_right ⟨?_, fun hkill => ⟨b, _, hkill, hback, by simp⟩⟩
  rintro ⟨c, e, hkill, hce, rfl⟩
  -- The link that leads to the port is the one that leads back from it.
  obtain ⟨-, hback'⟩ := Grid.step_opposite (h.inside _ hkill) hce
  obtain rfl := Option.some.inj (hback'.symm.trans hstep)
  rwa [Direction.opposite_opposite]

/-- A link works when both of its ends are live chips of the grid, and no kill names it from either
end of its wire. A link that leads back to its own chip does not count as one. This is the whole
effect of a history of kills, and it does not mention their order. -/
theorem isLink_iff (h : f.Records kills) : f.isLink a d = true ↔
    f.contains a = true ∧ .chip a ∉ kills ∧ ∃ b, f.step a d = some b ∧ b ≠ a ∧ .chip b ∉ kills ∧
      .link a d ∉ kills ∧ .link b d.opposite ∉ kills := by
  rw [Fabric.isLink_iff, isChip_iff, h.chips, and_assoc]
  refine and_congr_right fun ha => and_congr_right fun _ => ?_
  constructor
  · rintro ⟨hdead, b, hstep, hne, hb⟩
    rw [h.dead_iff ha hstep, not_or] at hdead
    rw [isChip_iff, h.chips] at hb
    exact ⟨b, hstep, hne, hb.2, hdead⟩
  · rintro ⟨b, hstep, hne, hb, hdead⟩
    refine ⟨?_, b, hstep, hne, isChip_iff.2 ⟨(Grid.step_opposite ha hstep).1, ?_⟩⟩
    · rwa [h.dead_iff ha hstep, not_or]
    · rwa [h.chips]

/-- Seen from either end, a wire works or does not. -/
theorem isLink_opposite (h : f.Records kills) (ha : f.contains a = true)
    (hstep : f.step a d = some b) : f.isLink a d = f.isLink b d.opposite := by
  obtain ⟨hb, hback⟩ := Grid.step_opposite ha hstep
  rw [Bool.eq_iff_iff, h.isLink_iff, h.isLink_iff]
  simp only [hstep, hback, ha, hb, Option.some.injEq, exists_eq_left', Direction.opposite_opposite,
    ne_comm (a := b), true_and]
  exact ⟨fun ⟨ha, hne, hb, hl, hr⟩ => ⟨hb, hne, ha, hr, hl⟩,
    fun ⟨hb, hne, ha, hr, hl⟩ => ⟨ha, hne, hb, hl, hr⟩⟩

/-- Kills with the same members make the same links work. -/
theorem isLink_congr (h : f.Records kills) (h' : f'.Records kills') (hgrid : f'.toGrid = f.toGrid)
    (hkills : ∀ k, k ∈ kills' ↔ k ∈ kills) : f'.isLink a d = f.isLink a d := by
  rw [Bool.eq_iff_iff, h.isLink_iff, h'.isLink_iff, hgrid]
  simp only [hkills]

/-- One more kill ends the links it hits and no others. -/
theorem isLink_kill (h : f.Records kills) (hk : f.contains k.place = true) :
    (f.kill k).isLink a d = true ↔ f.isLink a d = true ∧ ¬ k.Hits f.toGrid a d := by
  rw [(h.kill hk).isLink_iff, h.isLink_iff, toGrid_kill]
  simp only [List.mem_append, List.mem_singleton, not_or, and_assoc]
  refine and_congr_right fun ha => ?_
  constructor
  · rintro ⟨ha', hak, b, hstep, hne, hb, hbk, hl, hlk, hr, hrk⟩
    refine ⟨ha', ⟨b, hstep, hne, hb, hl, hr⟩, fun hhits => ?_⟩
    cases k with
    | chip c =>
        rcases hhits with rfl | hc
        · exact hak rfl
        · exact hbk (congrArg Kill.chip (Option.some.inj (hstep.symm.trans hc)))
    | link c e =>
        rcases hhits with ⟨rfl, rfl⟩ | ⟨hce, rfl⟩
        · exact hlk rfl
        · obtain ⟨-, hback⟩ := Grid.step_opposite hk hce
          rw [Option.some.inj (hstep.symm.trans hback), Direction.opposite_opposite] at hrk
          exact hrk rfl
  · rintro ⟨ha', ⟨b, hstep, hne, hb, hl, hr⟩, hhits⟩
    refine ⟨ha', ?_, b, hstep, hne, hb, ?_, hl, ?_, hr, ?_⟩
    · rintro rfl
      exact hhits (.inl rfl)
    · rintro rfl
      exact hhits (.inr hstep)
    · rintro rfl
      exact hhits (.inl ⟨rfl, rfl⟩)
    · rintro rfl
      exact hhits (.inr ⟨(Grid.step_opposite ha hstep).2, by simp⟩)

end Records

/-- A link works exactly if it leads from a chip of the grid to another one, and neither of the two
nor the link from either side was killed. So it works in both directions or in none, the order of
the kills and their repetition do not matter, and one more kill ends the links it hits only. Both
directions are compared from a chip of the grid: on a torus a link of a chip off the grid leads onto
it too, and does not work, but the opposite link there leads to another chip and may work. -/
theorem isLink_exact (f : Fabric) (kills : List Kill) (h : f.Built kills) (a : Chip)
    (d : Direction) :
    (f.isLink a d = true ↔ f.contains a = true ∧ .chip a ∉ kills ∧
      ∃ b, f.step a d = some b ∧ b ≠ a ∧ .chip b ∉ kills ∧
        .link a d ∉ kills ∧ .link b d.opposite ∉ kills) ∧
    (f.contains a = true → ∀ b, f.step a d = some b →
      f.isLink a d = f.isLink b d.opposite) ∧
    (∀ f' kills', Built f' kills' → f'.toGrid = f.toGrid → (∀ k, k ∈ kills' ↔ k ∈ kills) →
      f'.isLink a d = f.isLink a d) ∧
    ∀ k : Kill, f.contains k.place = true →
      ((f.kill k).isLink a d = true ↔ f.isLink a d = true ∧ ¬ k.Hits f.toGrid a d) :=
  ⟨h.records.isLink_iff, fun ha _ hstep => h.records.isLink_opposite ha hstep,
    fun _ _ h' hgrid hkills => h.records.isLink_congr h'.records hgrid hkills,
    fun _ hk => h.records.isLink_kill hk⟩

/-- A torus two chips wide, so that two links join the chips of a row in either direction. -/
def pairTorus : Grid := { width := 2, height := 3, wraps := true }

/-- Of the two wires in the lowest row one is killed, and a chip in another row. -/
theorem pairTorus_links : ∃ f kills, Built f kills ∧ kills = [.chip ⟨1, 2⟩, .link ⟨0, 0⟩ .east] ∧
    f.isLink ⟨0, 0⟩ .east = false ∧ f.isLink ⟨1, 0⟩ .west = false ∧
    f.isLink ⟨0, 0⟩ .west = true ∧ f.isLink ⟨1, 0⟩ .east = true ∧
    f.isLink ⟨0, 2⟩ .east = false := by
  have hbuilt : Built (((intact pairTorus).kill (.chip ⟨1, 2⟩)).kill (.link ⟨0, 0⟩ .east))
      [.chip ⟨1, 2⟩, .link ⟨0, 0⟩ .east] :=
    .kill (.kill (.intact pairTorus) (.chip ⟨1, 2⟩) (by decide)) (.link ⟨0, 0⟩ .east) (by decide)
  have hlive := isLink_exact _ _ hbuilt
  refine ⟨_, _, hbuilt, rfl, ?_, ?_, (hlive ⟨0, 0⟩ .west).1.2 ?_, (hlive ⟨1, 0⟩ .east).1.2 ?_, ?_⟩
  · rw [Bool.eq_false_iff, ne_eq, (hlive ⟨0, 0⟩ .east).1]
    rintro ⟨-, -, b, -, -, -, hlink, -⟩
    simp at hlink
  · rw [Bool.eq_false_iff, ne_eq, (hlive ⟨1, 0⟩ .west).1]
    rintro ⟨-, -, b, hstep, -, -, -, hlink⟩
    obtain rfl : (⟨0, 0⟩ : Chip) = b := Option.some.inj hstep
    simp [Direction.opposite] at hlink
  · exact ⟨by decide, by decide, ⟨1, 0⟩, by decide, by decide, by decide, by decide, by decide⟩
  · exact ⟨by decide, by decide, ⟨0, 0⟩, by decide, by decide, by decide, by decide, by decide⟩
  · rw [Bool.eq_false_iff, ne_eq, (hlive ⟨0, 2⟩ .east).1]
    rintro ⟨-, -, b, hstep, -, hchip, -⟩
    obtain rfl : (⟨1, 2⟩ : Chip) = b := Option.some.inj hstep
    simp at hchip

end Fabric

end Multicast
