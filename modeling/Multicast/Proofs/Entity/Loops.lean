import Multicast.Entity.Corridor
import Multicast.Proofs.Growth.Anchor
import Multicast.Proofs.Machine.Paths

/-!
# `Multicast.Proofs.Entity.Loops`: cutting loops out of a path

What the hops of a path have to obey does not matter to the cutting of its loops, so
`Corridor.Leads` takes the rule for one hop as a parameter. The path kept while hops are
added is a walk to where they have led so far, over some of them in their order, and it
visits no chip twice (`Loopless.Keeps`). A hop to a chip visited before is not kept: the
path is cut back to that visit (`cutBack_spec`), and the walk goes on from there. Where no
chip is visited twice nothing is cut back (`reverse_hops_foldl_addHop`).
-/

set_option autoImplicit false

namespace Multicast.Corridor

/-- Hops that lead from one chip to another, each of them as a rule allows. -/
def Leads (rule : Chip → Hop → Prop) : Chip → List Hop → Chip → Prop
  | a, [], b => a = b
  | a, hop :: rest, b => rule a hop ∧ Leads rule hop.chip rest b

variable {rule : Chip → Hop → Prop} {a b c start : Chip} {hops seen : List Hop} {path : Loopless}

/-- A walk over working links is one under the rule that every hop follows its link. -/
theorem leads_iff_isWalk {f : Fabric} :
    Leads (fun a hop => f.follow? a hop.link = some hop.chip) a hops b ↔ f.IsWalk a hops b := by
  induction hops generalizing a with
  | nil => rfl
  | cons hop rest ih => exact and_congr_right fun _ => ih

/-- Hops that lead to a chip land there last. -/
theorem Leads.endOf_eq (h : Leads rule a hops b) : Grid.endOf a hops = b := by
  induction hops generalizing a with
  | nil => exact h
  | cons hop rest ih => rw [Grid.endOf_cons, ih h.2]

/-- Hops that lead somewhere can be cut anywhere, at the chip they have come to by then. -/
theorem leads_append {rest : List Hop} : Leads rule a (hops ++ rest) b ↔
    Leads rule a hops (Grid.endOf a hops) ∧ Leads rule (Grid.endOf a hops) rest b := by
  induction hops generalizing a with
  | nil => exact (and_iff_right rfl).symm
  | cons hop hops ih =>
      rw [List.cons_append, Grid.endOf_cons, Leads, Leads, ih, and_assoc]

/-- The chip a path kept latest first has come to. -/
theorem endOf_reverse_cons (start : Chip) (hop : Hop) (earlier : List Hop) :
    Grid.endOf start (hop :: earlier).reverse = hop.chip := by
  rw [List.reverse_cons, Anchor.endOf_append]
  rfl

/-- What the loop-free path holds after some hops: a walk to where they lead, over some of them, on
the chips noted as visited. -/
structure Loopless.Keeps (rule : Chip → Hop → Prop) (start : Chip)
    (seen : List Hop) (path : Loopless) : Prop where
  walk : Leads rule start path.hops.reverse (Grid.endOf start seen)
  sublist : path.hops.reverse.Sublist seen
  nodup : (path.hops.map (·.chip) ++ [start]).Nodup
  visited : ∀ c, path.visited.contains c = true ↔ c ∈ path.hops.map (·.chip) ++ [start]

/-- Cutting a path back to a chip on it takes hops off its end until the chip is where it has come
to. -/
theorem cutBack_spec {visited : Std.ExtTreeSet Chip} (hc : c ∈ hops.map (·.chip) ++ [start])
    (hnodup : (hops.map (·.chip) ++ [start]).Nodup)
    (hvisited : ∀ d, visited.contains d = true ↔ d ∈ hops.map (·.chip) ++ [start]) :
    (cutBack c hops visited).hops <:+ hops ∧
      Grid.endOf start (cutBack c hops visited).hops.reverse = c ∧
      ∀ d, (cutBack c hops visited).visited.contains d = true ↔
        d ∈ (cutBack c hops visited).hops.map (·.chip) ++ [start] := by
  induction hops generalizing visited with
  | nil =>
      obtain rfl : c = start := by simpa using hc
      exact ⟨List.suffix_rfl, rfl, hvisited⟩
  | cons hop earlier ih =>
      rw [cutBack]
      split
      · next heq => exact ⟨List.suffix_rfl, heq ▸ endOf_reverse_cons start hop earlier, hvisited⟩
      · next hne =>
        rw [List.map_cons, List.cons_append] at hc hnodup hvisited
        obtain ⟨hnew, hnodup⟩ := List.nodup_cons.1 hnodup
        -- The chip taken off is visited no more, since it was visited once.
        have herased : ∀ d, (visited.erase hop.chip).contains d = true ↔
            d ∈ earlier.map (·.chip) ++ [start] := by
          intro d
          rw [Std.ExtTreeSet.contains_iff_mem, Std.ExtTreeSet.mem_erase,
            ← Std.ExtTreeSet.contains_iff_mem, hvisited, List.mem_cons, ne_eq,
            Std.LawfulEqOrd.compare_eq_iff_eq]
          constructor
          · exact fun ⟨hdiff, hd⟩ => hd.resolve_left fun heq => hdiff heq.symm
          · exact fun hd => ⟨fun heq => hnew (heq ▸ hd), .inr hd⟩
        obtain ⟨hsuffix, hend, hkept⟩ :=
          ih ((List.mem_cons.1 hc).resolve_left fun heq => hne heq.symm) hnodup herased
        exact ⟨hsuffix.trans (List.suffix_cons ..), hend, hkept⟩

/-- The chips visited after a hop are the one it lands on and those visited before. -/
theorem contains_insert_iff {visited : Std.ExtTreeSet Chip} {d : Chip} :
    (visited.insert c).contains d = true ↔ d = c ∨ visited.contains d = true := by
  rw [Std.ExtTreeSet.contains_insert, Bool.or_eq_true, beq_iff_eq,
    Std.LawfulEqOrd.compare_eq_iff_eq, @eq_comm _ c]

/-- A hop is added, or takes the path back to where it has led before. -/
theorem Loopless.Keeps.addHop {hop : Hop} (h : path.Keeps rule start seen)
    (hrule : rule (Grid.endOf start seen) hop) :
    (addHop path hop).Keeps rule start (seen ++ [hop]) := by
  have hend : Grid.endOf start (seen ++ [hop]) = hop.chip := by
    rw [Anchor.endOf_append]
    rfl
  rw [Corridor.addHop]
  split
  · next hold =>
    obtain ⟨hsuffix, hback, hvisited⟩ := cutBack_spec ((h.visited _).1 hold) h.nodup h.visited
    have hearly := List.reverse_prefix.2 hsuffix
    refine ⟨?_, ?_, ?_, hvisited⟩
    · -- A walk as far as the chip is part of the walk that was there.
      obtain ⟨rest, hrest⟩ := hearly
      have hwalk := h.walk
      rw [← hrest, leads_append, hback] at hwalk
      rw [hend]
      exact hwalk.1
    · exact (hearly.sublist.trans h.sublist).trans (List.sublist_append_left ..)
    · exact h.nodup.sublist ((hsuffix.sublist.map _).append (List.Sublist.refl _))
  · next hnew =>
    refine ⟨?_, ?_, ?_, fun c => ?_⟩
    · rw [List.reverse_cons, leads_append, hend, h.walk.endOf_eq]
      exact ⟨h.walk, hrule, rfl⟩
    · rw [List.reverse_cons]
      exact h.sublist.append (List.Sublist.refl _)
    · rw [List.map_cons, List.cons_append]
      exact List.nodup_cons.2 ⟨fun hmem => hnew ((h.visited _).2 hmem), h.nodup⟩
    · rw [contains_insert_iff, h.visited, List.map_cons, List.cons_append, List.mem_cons]

/-- Hops that lead on are added one after another. -/
theorem Loopless.Keeps.foldl (h : path.Keeps rule start seen)
    (hhops : Leads rule (Grid.endOf start seen) hops b) :
    (hops.foldl Corridor.addHop path).Keeps rule start (seen ++ hops) := by
  induction hops generalizing path seen with
  | nil =>
      rw [List.append_nil]
      exact h
  | cons hop rest ih =>
      rw [List.foldl_cons, ← List.singleton_append, ← List.append_assoc]
      refine ih (h.addHop hhops.1) ?_
      rw [Anchor.endOf_append]
      exact hhops.2

/-- Before any hop the path visits its start and nothing else, and has led nowhere. -/
theorem keeps_start :
    Loopless.Keeps rule start [] ⟨[], (∅ : Std.ExtTreeSet Chip).insert start⟩ := by
  refine ⟨rfl, List.Sublist.refl _, by simp, fun c => ?_⟩
  rw [contains_insert_iff]
  simp

/-- Over the hops of a walk the path without loops is a walk to the same chip over some of them, and
visits no chip twice. -/
theorem removeLoops_spec (h : Leads rule start hops b) :
    (removeLoops start hops).Sublist hops ∧ Leads rule start (removeLoops start hops) b ∧
      (start :: (removeLoops start hops).map (·.chip)).Nodup := by
  obtain ⟨hwalk, hsub, hnodup, -⟩ := keeps_start.foldl h
  rw [List.nil_append] at hwalk hsub
  refine ⟨hsub, h.endOf_eq ▸ hwalk, ?_⟩
  rw [removeLoops, List.map_reverse]
  exact (((List.reverse_perm _).cons start).trans
    (List.perm_append_singleton ..).symm).nodup_iff.2 hnodup

/-- Hops to chips that are all new are added in their order. -/
theorem reverse_hops_foldl_addHop
    (hvisited : ∀ c, path.visited.contains c = true ↔ c ∈ path.hops.map (·.chip) ++ [start])
    (hnew : ∀ hop ∈ hops, hop.chip ∉ path.hops.map (·.chip) ++ [start])
    (hnodup : (hops.map (·.chip)).Nodup) :
    (hops.foldl addHop path).hops.reverse = path.hops.reverse ++ hops := by
  induction hops generalizing path with
  | nil => exact (List.append_nil _).symm
  | cons hop rest ih =>
      obtain ⟨hfirst, hrest⟩ := List.forall_mem_cons.1 hnew
      obtain ⟨hother, hnodup⟩ := List.nodup_cons.1 hnodup
      have hadd : addHop path hop = ⟨hop :: path.hops, path.visited.insert hop.chip⟩ := by
        rw [addHop, if_neg (mt (hvisited _).1 hfirst)]
      rw [List.foldl_cons, hadd, ih (fun c => ?_) (fun later hlater => ?_) hnodup,
        List.reverse_cons, List.append_assoc, List.singleton_append]
      · rw [contains_insert_iff, hvisited, List.map_cons, List.cons_append, List.mem_cons]
      · rw [List.map_cons, List.cons_append, List.mem_cons, not_or]
        exact ⟨fun heq => hother (List.mem_map.2 ⟨later, hlater, heq⟩), hrest later hlater⟩

/-- Hops that visit no chip twice are left as they are. -/
theorem removeLoops_of_nodup (h : (start :: hops.map (·.chip)).Nodup) :
    removeLoops start hops = hops := by
  obtain ⟨hstart, hnodup⟩ := List.nodup_cons.1 h
  have hkeeps : Loopless.Keeps (fun _ _ => True) start [] _ := keeps_start
  refine reverse_hops_foldl_addHop hkeeps.visited (fun hop hhop hmem => ?_) hnodup
  obtain rfl : hop.chip = start := by simpa using hmem
  exact hstart (List.mem_map_of_mem hhop)

end Multicast.Corridor
