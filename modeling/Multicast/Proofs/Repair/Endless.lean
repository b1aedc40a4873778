import Multicast.Proofs.Repair.Levels

/-!
# `Multicast.Proofs.Repair.Endless`: which copies end

A working chip that a chain of edges leads to a second time ends the copy. A dead chip
does not: it is left out each time it is met, and what hangs off it is met again.
`RouteTree.Endless` says what this comes to: the row has a ring below its root, no chain
leads to a working chip a second time, and no endpoint hangs off a dead one. Such a row is
copied round for ever, and any other row is not (`Fabric.cut_ends`).

To tell the two apart `Cut.enough` levels suffice. A row without a ring has no chain as
long as the row; an endpoint is met over a short chain; and a chip met twice is met twice
over chains of less than twice the row's length (`RouteTree.exists_second`).
-/

set_option autoImplicit false

namespace Multicast

/-- A row that is copied for ever: below its root there is a ring, but no endpoint hangs off a dead
chip, and one chain of edges only leads to each working one. -/
structure RouteTree.Endless (f : Fabric) (t : RouteTree) : Prop where
  ring : ∃ n, t.Below t.root n ∧ ∃ k ∈ t.kids n, t.Below k n
  quiet : ∀ {n c}, t.Below t.root n → t.chip? n = some c → f.isChip c = false → t.endings n = []
  once : ∀ {chain chain' m n c}, t.follow t.root chain = some m → t.follow t.root chain' = some n →
    t.chip? m = some c → t.chip? n = some c → f.isChip c = true → chain = chain'

namespace Cut

variable {f : Fabric} {t : RouteTree} {rootChip : Chip} {k levels : Nat}

/-- The working chips met on the first levels are different when one chain only leads to each. -/
theorem nodup_working_iff : (f.working t (t.upTo k)).Nodup ↔
    ∀ {chain chain' m n c}, chain.length ≤ k → chain'.length ≤ k →
      t.follow t.root chain = some m → t.follow t.root chain' = some n →
      t.chip? m = some c → t.chip? n = some c → f.isChip c = true → chain = chain' := by
  rw [Fabric.working, RouteTree.upTo, List.filterMap_map, List.Nodup, List.pairwise_filterMap]
  simp only [Function.comp_apply, Option.filter_eq_some_iff]
  constructor
  · intro h chain chain' m n c hlen hlen' hm hn hmc hnc hlive
    by_contra hne
    have : Std.Symm fun x y : List Nat × NodeId =>
        ∀ c, t.chip? x.2 = some c ∧ f.isChip c = true →
          ∀ d, t.chip? y.2 = some d ∧ f.isChip d = true → c ≠ d :=
      ⟨fun _ _ hdiff c hc d hd hcd => hdiff d hd c hc hcd.symm⟩
    exact h.forall (RouteTree.mem_chainsUpTo.2 ⟨hlen, hm⟩) (RouteTree.mem_chainsUpTo.2 ⟨hlen', hn⟩)
      (fun heq => hne (Prod.mk.inj heq).1) c ⟨hmc, hlive⟩ c ⟨hnc, hlive⟩ rfl
  · intro h
    refine (t.nodup_chainsUpTo k).imp_of_mem ?_
    rintro ⟨chain, m⟩ ⟨chain', n⟩ hx hy hne c ⟨hmc, hlive⟩ d ⟨hnc, -⟩ rfl
    obtain ⟨hlen, hm⟩ := RouteTree.mem_chainsUpTo.1 hx
    obtain ⟨hlen', hn⟩ := RouteTree.mem_chainsUpTo.1 hy
    obtain rfl := h hlen hlen' hm hn hmc hnc hlive
    exact hne (congrArg (Prod.mk chain) (Option.some.inj (hm.symm.trans hn)))

section Row

variable (hroot : t.chip? t.root = some rootChip) (hlive : f.isChip rootChip = true)
  (hrow : ∀ p, ∀ n ∈ t.kids p, n < t.size)
include hroot hrow

/-- When the working chips met on enough levels are different, one chain only leads to each, however
long it is. -/
theorem once_of_nodup (hlong : 2 * t.size ≤ k) (hnodup : (f.working t (t.upTo k)).Nodup)
    {chain chain' : List Nat} {m n : NodeId} {c : Chip} (hm : t.follow t.root chain = some m)
    (hn : t.follow t.root chain' = some n) (hmc : t.chip? m = some c) (hnc : t.chip? n = some c)
    (hc : f.isChip c = true) : chain = chain' := by
  have hlt := RouteTree.lt_size_of_chip? hroot
  -- A chain to the chip is the short one: another one that is not too long would meet the chip a
  -- second time.
  have honly : ∀ {chain short n}, t.follow t.root chain = some n → t.chip? n = some c →
      t.follow t.root short = some n → short.length < t.size → chain = short := by
    intro chain short n hchain hnc hshort hlen
    by_contra hne
    obtain ⟨second, hsecond, hdiff, hlen'⟩ := RouteTree.exists_second hrow hlt hlen hchain hne
    exact hdiff (nodup_working_iff.1 hnodup (by omega) (by omega) hsecond hshort hnc hnc hc)
  obtain ⟨short, hshort, hlen⟩ := RouteTree.exists_short hrow hlt hm
  obtain ⟨short', hshort', hlen'⟩ := RouteTree.exists_short hrow hlt hn
  rw [honly hm hmc hshort hlen, honly hn hnc hshort' hlen']
  exact nodup_working_iff.1 hnodup (by omega) (by omega) hshort hshort' hmc hnc hc

include hlive

/-- Of an endless row no number of levels is copied to the end. -/
theorem run_of_endless (h : t.Endless f) (levels : Nat) :
    run f t rootChip levels (initial t rootChip) = none := by
  rw [run_eq_none_iff (before_initial hroot hlive) hrow, Nat.zero_add]
  refine ⟨?_, nodup_working_iff.2 fun _ _ => h.once, fun i _ _ n hn c hc hdead => ?_⟩
  · obtain ⟨n, hn, k, hk, hring⟩ := h.ring
    exact RouteTree.level_ne_nil hn hk hring levels
  · obtain ⟨chain, -, hchain⟩ := RouteTree.mem_level.1 hn
    exact h.quiet (RouteTree.below_iff_follow.2 ⟨chain, hchain⟩) hc hdead

/-- A row is endless if levels twice as many as its nodes are not enough. -/
theorem endless_of_run (hlong : 2 * t.size ≤ levels)
    (h : run f t rootChip levels (initial t rootChip) = none) : t.Endless f := by
  obtain ⟨hne, hnodup, hquiet⟩ := (run_eq_none_iff (before_initial hroot hlive) hrow levels).1 h
  rw [Nat.zero_add] at hne hnodup hquiet
  have hlt := RouteTree.lt_size_of_chip? hroot
  refine ⟨RouteTree.exists_ring_of_level hrow hlt (by omega) hne, fun hn hc hdead => ?_,
    once_of_nodup hroot hrow hlong hnodup⟩
  obtain ⟨chain, hchain⟩ := RouteTree.below_iff_follow.1 hn
  obtain ⟨short, hshort, hlen⟩ := RouteTree.exists_short hrow hlt hchain
  exact hquiet short.length (Nat.zero_le _) (by omega) _
    (RouteTree.mem_level.2 ⟨short, rfl, hshort⟩) _ hc hdead

end Row

end Cut

/-- From a working root a tree is copied with `enough` levels. -/
theorem Fabric.cut_eq {f : Fabric} {t : RouteTree} {rootChip : Chip}
    (hroot : t.chip? t.root = some rootChip) (hlive : f.isChip rootChip = true) :
    f.cut t = (Cut.run f t rootChip (Cut.enough t) (Cut.initial t rootChip)).getD
      (.error (.misuse .endlessTree)) := by
  simp only [Fabric.cut, hroot, hlive, if_true]
  cases Cut.run f t rootChip (Cut.enough t) (Cut.initial t rootChip) <;> rfl

/-- A copy starts at a working root only. It never ends where the row is endless; of any other row
`enough` levels make the copy, and only an endpoint on a dead chip or a working chip met a second
time can stop it. -/
theorem Fabric.cut_ends (f : Fabric) (t : RouteTree) (rootChip : Chip)
    (hroot : t.chip? t.root = some rootChip) (hrow : ∀ p, ∀ n ∈ t.kids p, n < t.size) :
    (f.isChip rootChip = false → f.cut t = .error (.deadRoot rootChip)) ∧
    (f.isChip rootChip = true →
      (t.Endless f → f.cut t = .error (.misuse .endlessTree) ∧
        ∀ levels, Cut.run f t rootChip levels (Cut.initial t rootChip) = none) ∧
      (¬ t.Endless f → ∃ result, f.cut t = result ∧
        (∀ levels, Cut.enough t ≤ levels →
          Cut.run f t rootChip levels (Cut.initial t rootChip) = some result) ∧
        ∀ error, result = .error error →
          (∃ c, error = .noLivePath rootChip c) ∨ ∃ c, error = .revisited c)) := by
  refine ⟨fun hdead => by simp [Fabric.cut, hroot, hdead], fun hlive => ⟨fun hendless => ?_, ?_⟩⟩
  · have hrun := Cut.run_of_endless hroot hlive hrow hendless
    exact ⟨by rw [cut_eq hroot hlive, hrun, Option.getD_none], hrun⟩
  · intro hends
    cases hrun : Cut.run f t rootChip (Cut.enough t) (Cut.initial t rootChip) with
    | none =>
        have hlong : 2 * t.size ≤ Cut.enough t := Nat.le_add_right ..
        exact absurd (Cut.endless_of_run hroot hlive hrow hlong hrun) hends
    | some result =>
        refine ⟨result, ?_, fun levels hle => ?_, fun error herror => ?_⟩
        · rw [cut_eq hroot hlive, hrun, Option.getD_some]
        · obtain ⟨more, rfl⟩ := Nat.exists_eq_add_of_le hle
          exact Cut.run_add hrun more
        · exact Cut.error_of_run (Cut.before_initial hroot hlive) hrow (herror ▸ hrun)

/-- Two chips, the second one dead. -/
def halfMesh : Fabric :=
  (Fabric.intact { width := 2, height := 1, wraps := false }).killChip ⟨1, 0⟩

/-- A root with an edge to a node that has an edge to itself. -/
def ringTree : RouteTree :=
  ((RouteTree.single ⟨0, 0⟩).addChild 0 (some (.link .east)) ⟨1, 0⟩).addEdge 1
    ⟨some (.link .west), .node 1⟩

/-- The edges of the ring lead to nodes of its row. -/
theorem ringTree_row (p : NodeId) : ∀ n ∈ ringTree.kids p, n < ringTree.size := by
  have hall : ∀ p < ringTree.size, ∀ n ∈ ringTree.kids p, n < ringTree.size := by decide
  exact fun n hn => hall p (RouteTree.lt_size_of_mem_kids hn) n hn

/-- No chain but the empty one leads to the root. -/
theorem ringTree_eq_nil {chain : List Nat} (h : ringTree.follow 0 chain = some 0) :
    chain = [] := by
  have hall : ∀ p < ringTree.size, 0 ∉ ringTree.kids p := by decide
  cases chain using List.reverseRecOn with
  | nil => rfl
  | append_singleton chain place =>
      obtain ⟨p, -, hplace⟩ := RouteTree.follow_snoc.1 h
      have hmem := List.mem_iff_getElem?.2 ⟨place, hplace⟩
      exact absurd hmem (hall p (RouteTree.lt_size_of_mem_kids hmem))

/-- The root is on the corner. -/
theorem ringTree_root : ringTree.chip? ringTree.root = some ⟨0, 0⟩ := rfl

/-- The node on the dead chip is below itself, nothing hangs off it, and the one working chip is met
once. -/
theorem ringTree_endless : ringTree.Endless halfMesh where
  ring := ⟨1, .single (RouteTree.adjacent_iff.2 (by decide)), 1, by decide, .refl⟩
  quiet _ hc _ := by
    have hall : ∀ n < ringTree.size, ringTree.endings n = [] := by decide
    exact hall _ (RouteTree.lt_size_of_chip? hc)
  once {chain chain' m n c} hm hn hmc hnc hlive := by
    have honly : ∀ n < ringTree.size, ∀ c ∈ ringTree.chip? n, halfMesh.isChip c = true → n = 0 := by
      decide +kernel
    obtain rfl := honly m (RouteTree.lt_size_of_chip? hmc) c hmc hlive
    obtain rfl := honly n (RouteTree.lt_size_of_chip? hnc) c hnc hlive
    rw [ringTree_eq_nil hm, ringTree_eq_nil hn]

/-- The copy of the ring on the dead chip does not end. -/
theorem ringTree_never_ends : ¬ ∃ levels result,
    Cut.run halfMesh ringTree ⟨0, 0⟩ levels (Cut.initial ringTree ⟨0, 0⟩) = some result := by
  rintro ⟨levels, result, hrun⟩
  rw [Cut.run_of_endless ringTree_root (by decide +kernel) ringTree_row ringTree_endless] at hrun
  contradiction

/-- The ring is endless where its chip is dead. Where it works the copy ends at the second visit. -/
theorem ringTree_cut :
    (ringTree.chip? ringTree.root = some ⟨0, 0⟩ ∧
      ∀ p, ∀ n ∈ ringTree.kids p, n < ringTree.size) ∧
    halfMesh.cut ringTree = .error (.misuse .endlessTree) ∧
    ¬ ringTree.Endless (.intact ⟨2, 1, false⟩) ∧
      (Fabric.intact ⟨2, 1, false⟩).cut ringTree = .error (.revisited ⟨1, 0⟩) := by
  obtain ⟨-, hhalf⟩ := Fabric.cut_ends halfMesh ringTree ⟨0, 0⟩ ringTree_root ringTree_row
  obtain ⟨hendless, -⟩ := (hhalf (by decide +kernel)).1 ringTree_endless
  obtain ⟨-, hwhole⟩ :=
    Fabric.cut_ends (.intact ⟨2, 1, false⟩) ringTree ⟨0, 0⟩ ringTree_root ringTree_row
  have hcut : (Fabric.intact ⟨2, 1, false⟩).cut ringTree = .error (.revisited ⟨1, 0⟩) := by
    decide +kernel
  refine ⟨⟨ringTree_root, ringTree_row⟩, hendless, fun hring => ?_, hcut⟩
  have := ((hwhole (by decide +kernel)).1 hring).1
  rw [hcut] at this
  simp at this

end Multicast
