import Multicast.Entity.LocalTree
import Multicast.Proofs.Machine.Paths
import Multicast.Proofs.Search.Layers

/-!
# `Multicast.Proofs.Entity.LocalTree`: the tree inside an entity is one of shortest paths

A local tree is a breadth-first walk over the working links that stay within a set of
chips. So it spans what can be reached without leaving the set, and the path to a chip that
is read off the walk is a shortest one (`span_exact`).

The edges of the tree also give each chip they lead to its parent (`parent?`). `climb` goes
from parent to parent and notes the hops on its way. There is one edge to each chip but the
root (`count_target_edges`), so a climb takes the steps of the path to the chip back to the
root: it ends on every chip, with the path of the tree (`exists_climb`).
-/

set_option autoImplicit false

namespace Multicast

/-- A walk over working links whose hops land within a set of chips. -/
def Fabric.IsWalkWithin (f : Fabric) (chips : Std.ExtTreeSet Chip) (a : Chip) (hops : List Hop)
    (b : Chip) : Prop :=
  f.IsWalk a hops b ∧ ∀ hop ∈ hops, hop.chip ∈ chips

namespace LocalTree

variable {f : Fabric} {chips : Std.ExtTreeSet Chip} {root a b c : Chip} {d : Direction}
  {hops : List Hop}

/-! ### Walks within a set of chips -/

/-- A chip is next to another inside an entity when a working link leads there and the chip belongs
to the entity. -/
theorem mem_linksWithin :
    (d, b) ∈ linksWithin f chips a ↔ f.follow? a d = some b ∧ b ∈ chips := by
  simp only [linksWithin, List.mem_map, List.mem_filter, Prod.mk.injEq,
    Std.ExtTreeSet.contains_iff_mem]
  constructor
  · rintro ⟨hop, ⟨hlive, hin⟩, rfl, rfl⟩
    exact ⟨Fabric.mem_liveLinks.1 hlive, hin⟩
  · exact fun ⟨hfollow, hin⟩ => ⟨⟨d, b⟩, ⟨Fabric.mem_liveLinks.2 hfollow, hin⟩, rfl, rfl⟩

/-- The hop of a step between chips. -/
def hopOf (step : Search.Step Chip Direction) : Hop :=
  ⟨step.edge, step.target⟩

/-- A route within the set is a walk there. -/
theorem isWalkWithin_of_isRoute {steps : List (Search.Step Chip Direction)}
    (h : Search.IsRoute (linksWithin f chips) a steps b) :
    f.IsWalkWithin chips a (steps.map hopOf) b := by
  induction steps generalizing a with
  | nil => exact ⟨h, by simp⟩
  | cons step rest ih =>
      obtain ⟨rfl, hstep, hrest⟩ := h
      obtain ⟨hfollow, hin⟩ := mem_linksWithin.1 hstep
      obtain ⟨hwalk, hchips⟩ := ih hrest
      exact ⟨⟨hfollow, hwalk⟩, List.forall_mem_cons.2 ⟨hin, hchips⟩⟩

/-- A walk inside the entity is a route of the search over its links. -/
theorem exists_isRoute (h : f.IsWalkWithin chips a hops b) :
    ∃ steps, Search.IsRoute (linksWithin f chips) a steps b ∧ steps.map hopOf = hops := by
  obtain ⟨hwalk, hchips⟩ := h
  induction hops generalizing a with
  | nil => exact ⟨[], hwalk, rfl⟩
  | cons hop rest ih =>
      obtain ⟨hin, hchips⟩ := List.forall_mem_cons.1 hchips
      obtain ⟨steps, hsteps, hmap⟩ := ih hwalk.2 hchips
      refine ⟨⟨a, hop.link, hop.chip⟩ :: steps, ⟨rfl, mem_linksWithin.2 ⟨hwalk.1, hin⟩, hsteps⟩, ?_⟩
      rw [List.map_cons, hmap]
      rfl

/-- So the search reaches the chips that walks inside the entity lead to. -/
theorem reaches_iff :
    Search.Reaches (linksWithin f chips) a b ↔ ∃ hops, f.IsWalkWithin chips a hops b := by
  constructor
  · intro h
    obtain ⟨steps, hsteps⟩ := h.exists_isRoute
    exact ⟨_, isWalkWithin_of_isRoute hsteps⟩
  · rintro ⟨hops, hwalk⟩
    obtain ⟨steps, hsteps, -⟩ := exists_isRoute hwalk
    exact hsteps.reaches

/-! ### What the tree spans -/

/-- What can be reached is the root or in the set. -/
theorem mem_of_reaches (h : Search.Reaches (linksWithin f chips) root b) :
    b ∈ root :: chips.toList := by
  obtain ⟨steps, hsteps⟩ := h.exists_isRoute
  cases steps using List.reverseRecOn with
  | nil => exact List.mem_cons.2 (.inl (Eq.symm hsteps))
  | append_singleton init step =>
      obtain ⟨-, hedge, rfl⟩ := Search.isRoute_snoc.1 hsteps
      exact List.mem_cons_of_mem _ (Std.ExtTreeSet.mem_toList.2 (mem_linksWithin.1 hedge).2)

/-- The root and the chips of the entity are no more than one above their number, which is enough
turns for the search. -/
theorem length_le (root : Chip) (chips : Std.ExtTreeSet Chip) :
    (root :: chips.toList).length ≤ chips.size + 1 := by
  simp

/-- The arrivals of the tree follow from one another. -/
theorem wellFound_span (f : Fabric) (root : Chip) (chips : Std.ExtTreeSet Chip) :
    Search.WellFound (linksWithin f chips) root (span f root chips).arrivals.reverse :=
  Search.wellFound_breadthFirst (fun _ => mem_of_reaches) (length_le root chips)

/-- The local tree holds the chips that its root reaches inside the entity, and no others. -/
theorem contains_span : (span f root chips).contains c = true ↔
    Search.Reaches (linksWithin f chips) root c := by
  rw [← Search.mem_breadthFirst _ (fun _ => mem_of_reaches) (length_le root chips) c, contains,
    List.any_eq_true, List.mem_map]
  simp only [beq_iff_eq]
  rfl

/-- To a chip that is reached there is a path in the local tree, the route back over the arrivals of
the search. -/
theorem pathTo?_span (hc : Search.Reaches (linksWithin f chips) root c) :
    (span f root chips).pathTo? c =
      some ((Search.route (span f root chips).arrivals c).map hopOf) :=
  if_pos (contains_span.2 hc)

/-- No path leads to any other chip, so whoever gets one knows that the chip is reached. -/
theorem pathTo?_eq_some : (span f root chips).pathTo? c = some hops ↔
    Search.Reaches (linksWithin f chips) root c ∧
      (Search.route (span f root chips).arrivals c).map hopOf = hops := by
  rw [← contains_span, pathTo?, Option.ite_none_right_eq_some, Option.some.injEq]
  rfl

/-! ### Parents -/

/-- The edges of a local tree are the arrivals that came over a link, which all do but the first. -/
theorem mem_edges {t : LocalTree} {step : Search.Step Chip Direction} : step ∈ t.edges ↔
    ⟨step.target, some (step.source, step.edge)⟩ ∈ t.arrivals := by
  simp only [edges, List.mem_filterMap, Option.map_eq_some_iff]
  constructor
  · rintro ⟨⟨node, via⟩, ha, ⟨parent, link⟩, rfl, rfl⟩
    exact ha
  · exact fun h => ⟨_, h, _, rfl, rfl⟩

/-- No chip has two edges that lead to it. -/
theorem nodup_target_edges (f : Fabric) (root : Chip) (chips : Std.ExtTreeSet Chip) :
    ((span f root chips).edges.map (·.target)).Nodup := by
  have hnodup : ((span f root chips).arrivals.map (·.node)).Nodup :=
    Search.nodup_breadthFirst _ (fun _ => mem_of_reaches) (length_le root chips)
  refine hnodup.sublist ?_
  rw [edges, List.map_filterMap]
  induction (span f root chips).arrivals with
  | nil => exact List.Sublist.refl _
  | cons a rest ih =>
      obtain ⟨node, via⟩ := a
      cases via with
      | none => exact ih.cons node
      | some via => exact ih.cons_cons node

/-- An edge leads to the chip from one hop nearer to the root. -/
theorem distance_target {step : Search.Step Chip Direction}
    (h : step ∈ (span f root chips).edges) :
    Search.distance (linksWithin f chips) root step.target =
      Search.distance (linksWithin f chips) root step.source + 1 :=
  Search.oneFarther_of_mem (mem_edges.1 h) _ _ rfl

/-- No edge leads to the root: the search starts there and does not arrive again. -/
theorem target_ne_root {step : Search.Step Chip Direction}
    (h : step ∈ (span f root chips).edges) : step.target ≠ root := by
  intro heq
  have hfar := distance_target h
  rw [heq, Search.distance_start] at hfar
  omega

/-- One edge leads to each chip the tree spans but the root, and none to any other chip. -/
theorem count_target_edges (f : Fabric) (root : Chip) (chips : Std.ExtTreeSet Chip) (c : Chip) :
    ((span f root chips).edges.map (·.target)).count c =
      if (span f root chips).contains c = true ∧ c ≠ root then 1 else 0 := by
  split
  · next h =>
    obtain ⟨hc, hne⟩ := h
    refine List.count_eq_one_of_mem (nodup_target_edges f root chips) ?_
    -- A chip spanned that is not the root was found over an edge.
    obtain ⟨⟨node, via⟩, ha, heq⟩ := List.any_eq_true.1 hc
    obtain rfl := eq_of_beq heq
    have hfollows := (wellFound_span f root chips).follows (List.mem_reverse.2 ha)
    cases via with
    | none => exact absurd hfollows hne
    | some via => exact List.mem_map.2 ⟨⟨via.1, via.2, node⟩, mem_edges.2 ha, rfl⟩
  · next h =>
    refine List.count_eq_zero.2 fun hmem => h ?_
    obtain ⟨step, hstep, rfl⟩ := List.mem_map.1 hmem
    refine ⟨List.any_eq_true.2 ⟨_, mem_edges.1 hstep, beq_self_eq_true _⟩, target_ne_root hstep⟩

/-- The parent of a chip and the link that leads from there, by the edges of the tree. -/
def parent? (t : LocalTree) (c : Chip) : Option (Chip × Direction) :=
  (t.edges.find? fun step => step.target == c).map fun step => (step.source, step.edge)

/-- Goes from parent to parent until the root is reached or a chip has no parent; `onward` are the
hops noted so far. A climb of more than `n` steps does not end here. -/
def climb (t : LocalTree) : Nat → Chip → List Hop → Option (Option (List Hop))
  | 0, c, onward => if c = t.root then some (some onward) else none
  | n + 1, c, onward =>
    if c = t.root then some (some onward)
    else
      match t.parent? c with
      | none => some none
      | some (parent, link) => t.climb n parent (⟨link, c⟩ :: onward)

/-- The parent of the end of an edge is the start of that edge, because a chip is arrived at once. -/
theorem parent?_eq_some {step : Search.Step Chip Direction}
    (h : step ∈ (span f root chips).edges) :
    (span f root chips).parent? step.target = some (step.source, step.edge) := by
  unfold parent?
  cases hfind : (span f root chips).edges.find? fun s => s.target == step.target with
  | none =>
      have := List.find?_eq_none.1 hfind step h
      simp at this
  | some other =>
      -- The edge found leads to the same chip, so it is the same edge.
      have htarget : other.target = step.target := by simpa using List.find?_some hfind
      obtain rfl := List.inj_on_of_nodup_map (nodup_target_edges f root chips)
        (List.mem_of_find?_eq_some hfind) h htarget
      rfl

/-- A climb goes back over the edges of a route. -/
theorem climb_of_isRoute {steps : List (Search.Step Chip Direction)} {n : Nat}
    (hroute : Search.IsRoute (linksWithin f chips) root steps c)
    (hedges : ∀ step ∈ steps, step ∈ (span f root chips).edges) (hn : steps.length ≤ n)
    (onward : List Hop) :
    (span f root chips).climb n c onward = some (some (steps.map hopOf ++ onward)) := by
  induction steps using List.reverseRecOn generalizing c n onward with
  | nil =>
      obtain rfl : root = c := hroute
      cases n <;> exact if_pos rfl
  | append_singleton init step ih =>
      obtain ⟨hinit, -, rfl⟩ := Search.isRoute_snoc.1 hroute
      have hstep := hedges step (by simp)
      rw [List.length_append, List.length_singleton] at hn
      obtain ⟨n, rfl⟩ : ∃ m, n = m + 1 := ⟨n - 1, by omega⟩
      have hne : step.target ≠ (span f root chips).root := target_ne_root hstep
      rw [climb, if_neg hne, parent?_eq_some hstep]
      show (span f root chips).climb n step.source _ = _
      rw [ih hinit (fun s hs => hedges s (List.mem_append_left _ hs)) (by omega),
        List.map_append, List.append_assoc]
      rfl

/-- A climb ends on every chip, with the path of the tree. -/
theorem exists_climb (f : Fabric) (root : Chip) (chips : Std.ExtTreeSet Chip) (c : Chip) :
    ∃ n, ∀ m, n ≤ m →
      (span f root chips).climb m c [] = some ((span f root chips).pathTo? c) := by
  by_cases hc : Search.Reaches (linksWithin f chips) root c
  · obtain ⟨hroute, -, -, harrivals⟩ :=
      Search.route_breadthFirst (fun _ => mem_of_reaches) (length_le root chips) hc
    refine ⟨(Search.route (span f root chips).arrivals c).length, fun m hm => ?_⟩
    rw [climb_of_isRoute hroute (fun step hstep => mem_edges.2 (harrivals step hstep)) hm,
      List.append_nil]
    exact congrArg some (pathTo?_span hc).symm
  · -- A chip that the tree does not span is not the root and has no parent.
    refine ⟨1, fun m hm => ?_⟩
    have hno : (span f root chips).contains c ≠ true := fun h => hc (contains_span.1 h)
    have hne : c ≠ (span f root chips).root := by
      rintro rfl
      exact hc .refl
    have hparent : (span f root chips).parent? c = none := by
      rw [parent?, Option.map_eq_none_iff, List.find?_eq_none]
      intro step hstep heq
      have hcount := count_target_edges f root chips c
      rw [if_neg (fun h => hno h.1), List.count_eq_zero] at hcount
      exact hcount (List.mem_map.2 ⟨step, hstep, eq_of_beq heq⟩)
    obtain ⟨m, rfl⟩ : ∃ k, m = k + 1 := ⟨m - 1, by omega⟩
    rw [climb, if_neg hne, hparent, pathTo?, if_neg hno]

/-- A local tree spans the chips that can be reached from its root within the set. To each of them,
and to no other chip, it gives a path, a shortest one within the set; and going from parent to
parent always ends, with that path. One edge leads to each of them but the root. -/
theorem span_exact (f : Fabric) (root : Chip) (chips : Std.ExtTreeSet Chip) (c : Chip) :
    ((span f root chips).contains c = true ↔ ∃ hops, f.IsWalkWithin chips root hops c) ∧
    ((span f root chips).pathTo? c ≠ none ↔ (span f root chips).contains c = true) ∧
    (∃ n, ∀ m, n ≤ m →
      (span f root chips).climb m c [] = some ((span f root chips).pathTo? c)) ∧
    (∀ hops, (span f root chips).pathTo? c = some hops →
      f.IsWalkWithin chips root hops c ∧
      ∀ other, f.IsWalkWithin chips root other c → hops.length ≤ other.length) ∧
    ((span f root chips).edges.map (·.target)).count c =
      if (span f root chips).contains c = true ∧ c ≠ root then 1 else 0 := by
  refine ⟨contains_span.trans reaches_iff, ?_, exists_climb f root chips c, fun hops hpath => ?_,
    count_target_edges f root chips c⟩
  · unfold pathTo?
    split <;> simp_all
  · obtain ⟨hc, rfl⟩ := pathTo?_eq_some.1 hpath
    obtain ⟨hroute, hlength, -⟩ :=
      Search.route_breadthFirst (fun _ => mem_of_reaches) (length_le root chips) hc
    refine ⟨isWalkWithin_of_isRoute hroute, fun other hother => ?_⟩
    obtain ⟨steps, hsteps, rfl⟩ := exists_isRoute hother
    rw [List.length_map, List.length_map]
    exact hlength.trans_le (Search.distance_le hsteps)

end LocalTree

end Multicast
