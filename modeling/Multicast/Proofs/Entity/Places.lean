import Mathlib.Data.List.Nodup
import Multicast.Proofs.Entity.Loops

/-!
# `Multicast.Proofs.Entity.Places`: cutting loops out of a path by places

`Corridor.removeLoops` takes hops back one by one until the chip it came to again is where
the path ends. A path can also be cut at once, if the place of every chip on it is known.
`Marked` keeps three things for that: the chips visited, the place of each, and the hops.
All three are cut back together, and the places of the chips cut off are forgotten
(`Marked.add`).

They stay in step: the place noted for a chip is where the chip stands, and the hops are
those that lead from chip to chip (`Marked.Tracks`). So a cut at a place leaves the hops up
to the chip there, which is what taking them back one by one leaves (`Tracks.add`), and both
ways of cutting give the same path (`removeLoopsByPlace_eq`).
-/

set_option autoImplicit false

namespace Multicast.Corridor

/-- A path with the place of every chip on it. -/
structure Marked where
  /-- The chips visited, the first one too. -/
  chips : List Chip
  places : Std.ExtTreeMap Chip Nat
  hops : List Hop

namespace Marked

/-- The path up to a place. The chips behind it have no place any more. -/
def cutAt (m : Marked) (place : Nat) : Marked where
  chips := m.chips.take (place + 1)
  places := (m.chips.drop (place + 1)).foldl (fun places c => places.erase c) m.places
  hops := m.hops.take place

/-- The path with one more hop. -/
def push (m : Marked) (hop : Hop) : Marked where
  chips := m.chips ++ [hop.chip]
  places := m.places.insert hop.chip m.chips.length
  hops := m.hops ++ [hop]

/-- Adds a hop. A chip that has a place cuts the path back to it. -/
def add (m : Marked) (hop : Hop) : Marked :=
  match m.places[hop.chip]? with
  | some place => m.cutAt place
  | none => m.push hop

/-- The path that visits its start only. -/
def single (start : Chip) : Marked :=
  { chips := [start], places := (∅ : Std.ExtTreeMap Chip Nat).insert start 0, hops := [] }

end Marked

/-- Cuts every loop out of a path by the places of its chips. -/
def removeLoopsByPlace (start : Chip) (hops : List Hop) : List Hop :=
  (hops.foldl Marked.add (.single start)).hops

variable {start c : Chip} {hop : Hop} {hops kept : List Hop} {m : Marked} {path : Loopless}
  {place : Nat}

/-- Behind as many hops a path has come to its end. -/
theorem getElem?_chips_length (start : Chip) (hops : List Hop) :
    (start :: hops.map (·.chip))[hops.length]? = some (Grid.endOf start hops) := by
  induction hops generalizing start with
  | nil => rfl
  | cons hop rest ih =>
      rw [List.map_cons, List.length_cons, List.getElem?_cons_succ, ih, Grid.endOf_cons]

/-- The hops up to a chip, on a path that visits it once, are those before its place. -/
theorem prefix_eq_take (hnodup : (start :: hops.map (·.chip)).Nodup)
    (hplace : (start :: hops.map (·.chip))[place]? = some c) (hkept : kept <+: hops)
    (hend : Grid.endOf start kept = c) : kept = hops.take place := by
  obtain ⟨rest, rfl⟩ := hkept
  have hlast : (start :: (kept ++ rest).map (·.chip))[kept.length]? = some c := by
    rw [← hend, ← getElem?_chips_length, List.map_append, ← List.cons_append,
      List.getElem?_append_left (by simp)]
  have hlt : kept.length < (start :: (kept ++ rest).map (·.chip)).length := by
    simp only [List.length_cons, List.length_map, List.length_append]
    omega
  obtain rfl := (List.getElem?_inj hlt hnodup).1 (hlast.trans hplace.symm)
  exact List.take_left.symm

/-- The places of some chips can be forgotten in any order, and one that comes twice among them
makes no difference. -/
theorem getElem?_foldl_erase (l : List Chip) (places : Std.ExtTreeMap Chip Nat) (c : Chip) :
    (l.foldl (fun places d => places.erase d) places)[c]? = if c ∈ l then none else places[c]? := by
  induction l generalizing places with
  | nil => simp
  | cons d l ih =>
      rw [List.foldl_cons, ih, Std.ExtTreeMap.getElem?_erase]
      simp only [Std.LawfulEqOrd.compare_eq_iff_eq, List.mem_cons]
      by_cases hd : d = c <;> by_cases hc : c ∈ l <;> simp [hd, hc, Ne.symm]

/-- Noting a place overwrites what was noted for the chip, and leaves the places of all others. -/
theorem getElem?_insert_eq_some_iff {places : Std.ExtTreeMap Chip Nat} {d : Chip} {i n : Nat} :
    (places.insert d n)[c]? = some i ↔ (d = c ∧ n = i) ∨ (d ≠ c ∧ places[c]? = some i) := by
  rw [Std.ExtTreeMap.getElem?_insert]
  simp only [Std.LawfulEqOrd.compare_eq_iff_eq]
  by_cases hd : d = c <;> simp [hd]

/-- What the front of a list without repeats holds is not held behind it. -/
theorem getElem?_take_eq_some_iff {l : List Chip} {n i : Nat} (h : l.Nodup) :
    (l.take n)[i]? = some c ↔ c ∉ l.drop n ∧ l[i]? = some c := by
  constructor
  · intro hfront
    obtain ⟨hi, hat⟩ : i < n ∧ l[i]? = some c := by
      simpa [List.getElem?_take] using hfront
    refine ⟨fun hback => ?_, hat⟩
    obtain ⟨j, hj⟩ := List.getElem?_of_mem hback
    rw [List.getElem?_drop] at hj
    have hsame := (List.getElem?_inj (List.getElem?_eq_some_iff.1 hat).1 h).1 (hat.trans hj.symm)
    omega
  · intro ⟨hback, hat⟩
    have hi : i < n := by
      by_contra hge
      refine hback (List.mem_of_getElem? (i := i - n) ?_)
      rwa [List.getElem?_drop, Nat.add_sub_cancel' (Nat.le_of_not_lt hge)]
    rwa [List.getElem?_take_of_lt hi]

namespace Marked

/-- The three parts of a path with places are in step, and it is the path without places. -/
structure Tracks (start : Chip) (path : Loopless) (m : Marked) : Prop where
  hops : m.hops = path.hops.reverse
  chips : m.chips = start :: m.hops.map (·.chip)
  nodup : m.chips.Nodup
  places : ∀ (c : Chip) (i : Nat), m.places[c]? = some i ↔ m.chips[i]? = some c
  visited : ∀ c, path.visited.contains c = true ↔ c ∈ path.hops.map (·.chip) ++ [start]

/-- Read backwards, the chips on the path are those of the hops kept latest first, and then the
start. -/
theorem Tracks.reverse_chips (h : m.Tracks start path) :
    m.chips.reverse = path.hops.map (·.chip) ++ [start] := by
  rw [h.chips, h.hops, List.reverse_cons, List.map_reverse, List.reverse_reverse]

/-- The chips noted as visited are those with a place. -/
theorem Tracks.contains_iff (h : m.Tracks start path) :
    path.visited.contains c = true ↔ c ∈ m.chips := by
  rw [h.visited, ← h.reverse_chips, List.mem_reverse]

/-- A cut at the place of a chip leaves what taking hops back to the chip leaves. -/
theorem Tracks.cutAt (h : m.Tracks start path) (hplace : m.places[c]? = some place) :
    (m.cutAt place).Tracks start (cutBack c path.hops path.visited) := by
  have hat := (h.places _ _).1 hplace
  have hmem : c ∈ path.hops.map (·.chip) ++ [start] :=
    h.reverse_chips ▸ List.mem_reverse.2 (List.mem_of_getElem? hat)
  obtain ⟨hsuffix, hend, hvisited⟩ :=
    cutBack_spec hmem (h.reverse_chips ▸ List.nodup_reverse.2 h.nodup) h.visited
  rw [Marked.cutAt]
  refine ⟨?_, ?_, h.nodup.sublist (List.take_sublist ..), fun d i => ?_, hvisited⟩
  · refine (prefix_eq_take (h.chips ▸ h.nodup) (h.chips ▸ hat) ?_ hend).symm
    exact h.hops ▸ List.reverse_prefix.2 hsuffix
  · rw [h.chips, List.take_succ_cons, List.map_take]
  · -- The places forgotten are those of the chips behind the cut.
    rw [getElem?_foldl_erase, getElem?_take_eq_some_iff h.nodup, ← h.places]
    simp

/-- A chip that is new gets the place behind the last. -/
theorem Tracks.push (h : m.Tracks start path) (hnew : hop.chip ∉ m.chips) :
    (m.push hop).Tracks start ⟨hop :: path.hops, path.visited.insert hop.chip⟩ := by
  rw [Marked.push]
  refine ⟨?_, ?_, ?_, fun c i => ?_, fun c => ?_⟩
  · rw [h.hops, List.reverse_cons]
  · rw [h.chips, List.map_append, List.cons_append]
    rfl
  · rw [← List.concat_eq_append]
    exact List.Nodup.concat hnew h.nodup
  · -- Of the chip alone nothing was noted, and it stands behind all others.
    rw [getElem?_insert_eq_some_iff, h.places, List.getElem?_append]
    have hother : m.chips[i]? ≠ some hop.chip := fun hat => hnew (List.mem_of_getElem? hat)
    grind
  · rw [contains_insert_iff, h.visited, List.map_cons, List.cons_append, List.mem_cons]

/-- A hop is added to both alike. -/
theorem Tracks.add (h : m.Tracks start path) (hop : Hop) :
    (m.add hop).Tracks start (addHop path hop) := by
  rw [Marked.add, addHop]
  cases hplace : m.places[hop.chip]? with
  | some place =>
      rw [if_pos (h.contains_iff.2 (List.mem_of_getElem? ((h.places _ _).1 hplace)))]
      exact h.cutAt hplace
  | none =>
      have hnew : hop.chip ∉ m.chips := fun hmem => by
        obtain ⟨i, hi⟩ := List.getElem?_of_mem hmem
        rw [(h.places _ _).2 hi] at hplace
        cases hplace
      rw [if_neg (mt h.contains_iff.1 hnew)]
      exact h.push hnew

/-- Both paths are in step after any hops, since they are after each of them. -/
theorem Tracks.foldl (h : m.Tracks start path) (hops : List Hop) :
    (hops.foldl Marked.add m).Tracks start (hops.foldl addHop path) := by
  induction hops generalizing m path with
  | nil => exact h
  | cons hop rest ih => exact ih (h.add hop)

/-- A path that has made no hop visits its start in the first place. -/
theorem tracks_single :
    (single start).Tracks start ⟨[], (∅ : Std.ExtTreeSet Chip).insert start⟩ := by
  have hkeeps : Loopless.Keeps (fun _ _ => True) start [] _ := keeps_start
  refine ⟨rfl, rfl, List.nodup_singleton _, fun c i => ?_, hkeeps.visited⟩
  rw [single, getElem?_insert_eq_some_iff]
  cases i <;> simp [eq_comm]

end Marked

/-- Both ways of cutting loops out of a path give the same path. -/
theorem removeLoopsByPlace_eq (start : Chip) (hops : List Hop) :
    removeLoopsByPlace start hops = removeLoops start hops :=
  (Marked.tracks_single.foldl hops).hops

/-- Whatever the hops of a walk have to obey: without its loops it is a walk under the same rule,
between the same chips and over some of its hops in their order, and visits no chip twice, its
start included. Only a walk that did so before is left as it was, and cutting by places gives the
same walk. -/
theorem removeLoops_exact (rule : Chip → Hop → Prop) (start b : Chip) (hops : List Hop)
    (h : Leads rule start hops b) :
    removeLoopsByPlace start hops = removeLoops start hops ∧
    (removeLoops start hops).Sublist hops ∧
    Leads rule start (removeLoops start hops) b ∧
    (start :: (removeLoops start hops).map (·.chip)).Nodup ∧
    (removeLoops start hops = hops ↔ (start :: hops.map (·.chip)).Nodup) := by
  obtain ⟨hsub, hleads, hnodup⟩ := removeLoops_spec h
  exact ⟨removeLoopsByPlace_eq .., hsub, hleads, hnodup, fun heq => heq ▸ hnodup,
    removeLoops_of_nodup⟩

/-- A walk on a mesh that comes back to its start and then goes round a loop, over a chip that the
first loop took it to as well. -/
def windingWalk : List Hop :=
  [⟨.east, ⟨1, 0⟩⟩, ⟨.north, ⟨1, 1⟩⟩, ⟨.southWest, ⟨0, 0⟩⟩, ⟨.east, ⟨1, 0⟩⟩, ⟨.east, ⟨2, 0⟩⟩,
    ⟨.north, ⟨2, 1⟩⟩, ⟨.west, ⟨1, 1⟩⟩, ⟨.south, ⟨1, 0⟩⟩, ⟨.north, ⟨1, 1⟩⟩]

/-- The rule of the links of a mesh of three by two chips. -/
def meshRule (a : Chip) (hop : Hop) : Prop :=
  (Grid.mk 3 2 false).step a hop.link = some hop.chip

/-- Without its loops two of its nine hops are left. -/
theorem windingWalk_removeLoops :
    Leads meshRule ⟨0, 0⟩ windingWalk ⟨1, 1⟩ ∧
      removeLoops ⟨0, 0⟩ windingWalk = [⟨.east, ⟨1, 0⟩⟩, ⟨.north, ⟨1, 1⟩⟩] ∧
      Leads meshRule ⟨0, 0⟩ (removeLoops ⟨0, 0⟩ windingWalk) ⟨1, 1⟩ := by
  have hwalk : Leads meshRule ⟨0, 0⟩ windingWalk ⟨1, 1⟩ := by
    simp only [windingWalk, Leads, meshRule]
    decide
  obtain ⟨-, -, hleads, -⟩ := removeLoops_exact meshRule ⟨0, 0⟩ ⟨1, 1⟩ windingWalk hwalk
  exact ⟨hwalk, by decide +kernel, hleads⟩

end Multicast.Corridor
