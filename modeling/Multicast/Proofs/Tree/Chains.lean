import Mathlib.Data.Fintype.Pigeonhole
import Multicast.Proofs.Tree.Proper

/-!
# `Multicast.Proofs.Tree.Chains`: chains of edges in any row

In a row whose edges stay in the row a chain of as many edges as there are nodes passes a
node twice (`exists_ring`). Taking out what lies between makes the chain shorter, but not
by more than a row's length (`exists_shorter`). Two things follow: every node below the
root has a short chain (`exists_short`), and a node with more than one chain has another
one of less than twice the row's length (`exists_second`).

`chains` lists the chains of a length from the root with their ends. The ends alone are a
level of the row: a node stands there once for each chain that leads to it.
-/

set_option autoImplicit false

namespace Multicast.RouteTree

variable {t : RouteTree} {m n p : NodeId} {chain short : List Nat}

/-- A chain of two parts leads where the second leads from the end of the first. -/
theorem follow_append {rest : List Nat} : t.follow m (chain ++ rest) = some n ↔
    ∃ p, t.follow m chain = some p ∧ t.follow p rest = some n := by
  induction chain generalizing m with
  | nil => simp [follow]
  | cons place chain ih =>
      rw [List.cons_append, follow, follow]
      cases (t.kids m)[place]? with
      | none => simp
      | some next => exact ih

/-- A chain that leads somewhere leads somewhere from its first edge. -/
theorem follow_cons {place : Nat} {rest : List Nat} : t.follow m (place :: rest) = some n ↔
    ∃ k, (t.kids m)[place]? = some k ∧ t.follow k rest = some n := by
  rw [follow]
  cases (t.kids m)[place]? <;> simp

section Row

variable (hrow : ∀ p, ∀ n ∈ t.kids p, n < t.size)
include hrow

/-- Chains that start in the row stay in it. -/
theorem lt_size_of_follow (hm : m < t.size) (h : t.follow m chain = some n) : n < t.size := by
  cases chain using List.reverseRecOn with
  | nil =>
      obtain rfl : m = n := Option.some.inj h
      exact hm
  | append_singleton chain place =>
      obtain ⟨p, -, hplace⟩ := follow_snoc.1 h
      exact hrow p n (List.mem_iff_getElem?.2 ⟨place, hplace⟩)

/-- A long chain passes a node twice. -/
theorem exists_ring (hm : m < t.size) (h : t.follow m chain = some n)
    (hlong : t.size ≤ chain.length) : ∃ p before ring after,
      chain = before ++ ring ++ after ∧ ring ≠ [] ∧ ring.length ≤ t.size ∧
        t.follow m before = some p ∧ t.follow p ring = some p ∧ t.follow p after = some n := by
  -- The nodes met over the first edges are one more than the row has.
  have hmet : ∀ i : Fin (t.size + 1), ∃ q : Fin t.size,
      t.follow m (chain.take i) = some q.1 ∧ t.follow q.1 (chain.drop i) = some n := by
    intro i
    obtain ⟨q, hq, hrest⟩ := follow_append.1 ((List.take_append_drop i.1 chain).symm ▸ h)
    exact ⟨⟨q, lt_size_of_follow hrow hm hq⟩, hq, hrest⟩
  choose met hmet using hmet
  obtain ⟨i, j, hne, heq⟩ := Fintype.exists_ne_map_eq_of_card_lt met (by simp)
  wlog hlt : i < j generalizing i j
  · exact this j i hne.symm heq.symm (lt_of_le_of_ne (not_lt.1 hlt) hne.symm)
  have hj := hmet j
  rw [← heq] at hj
  have hsplit : chain.take j = chain.take i ++ (chain.drop i).take (j - i) := by
    rw [← List.take_add, Nat.add_sub_cancel' (le_of_lt hlt)]
  have hlen : ((chain.drop i).take (j - i)).length = j - i := by
    rw [List.length_take, List.length_drop]
    omega
  refine ⟨met i, chain.take i, (chain.drop i).take (j - i), chain.drop j, ?_, ?_, ?_,
    (hmet i).1, ?_, hj.2⟩
  · rw [← hsplit, List.take_append_drop]
  · exact List.ne_nil_of_length_pos (by omega)
  · omega
  · -- Over the first edges to the second meeting: to the node, and from there on to it again.
    obtain ⟨q, hq, hring⟩ := follow_append.1 (hsplit ▸ hj.1)
    obtain rfl := Option.some.inj ((hmet i).1.symm.trans hq)
    exact hring

/-- A long chain can be made shorter, by no more edges than the row has nodes. -/
theorem exists_shorter (hm : m < t.size) (h : t.follow m chain = some n)
    (hlong : t.size ≤ chain.length) : ∃ chain', t.follow m chain' = some n ∧
      chain'.length < chain.length ∧ chain.length ≤ chain'.length + t.size := by
  obtain ⟨p, before, ring, after, rfl, hne, hlen, hbefore, -, hafter⟩ := exists_ring hrow hm h hlong
  have hpos := List.length_pos_iff.2 hne
  refine ⟨before ++ after, follow_append.2 ⟨p, hbefore, hafter⟩, ?_, ?_⟩ <;>
    simp only [List.length_append] <;> omega

/-- Where a chain leads a short one does. -/
theorem exists_short (hm : m < t.size) (h : t.follow m chain = some n) :
    ∃ short, t.follow m short = some n ∧ short.length < t.size := by
  induction hlen : chain.length using Nat.strong_induction_on generalizing chain with
  | _ length ih =>
      by_cases hlong : t.size ≤ chain.length
      · obtain ⟨chain', h', hlt, -⟩ := exists_shorter hrow hm h hlong
        exact ih _ (hlen ▸ hlt) h' rfl
      · exact ⟨chain, h, Nat.lt_of_not_le hlong⟩

/-- Where there is another chain besides a short one, there is one not much longer. -/
theorem exists_second (hm : m < t.size) (hshort : short.length < t.size)
    (h : t.follow m chain = some n) (hne : chain ≠ short) :
    ∃ chain', t.follow m chain' = some n ∧ chain' ≠ short ∧ chain'.length < 2 * t.size := by
  induction hlen : chain.length using Nat.strong_induction_on generalizing chain with
  | _ length ih =>
      by_cases hlong : 2 * t.size ≤ chain.length
      · -- The chain stays longer than the short one, so it does not become that.
        obtain ⟨chain', h', hlt, hle⟩ := exists_shorter hrow hm h (by omega)
        exact ih _ (hlen ▸ hlt) h' (fun heq => by subst heq; omega) rfl
      · exact ⟨chain, h, hne, Nat.lt_of_not_le hlong⟩

end Row

/-- There are chains of any length to a ring. -/
theorem exists_long (hbelow : t.Below m n) {k : NodeId} (hk : k ∈ t.kids n) (hring : t.Below k n)
    (length : Nat) : ∃ chain, t.follow m chain = some n ∧ length ≤ chain.length := by
  induction length with
  | zero =>
      obtain ⟨chain, h⟩ := below_iff_follow.1 hbelow
      exact ⟨chain, h, Nat.zero_le _⟩
  | succ length ih =>
      obtain ⟨chain, h, hlen⟩ := ih
      obtain ⟨place, hplace⟩ := List.mem_iff_getElem?.1 hk
      obtain ⟨ring, hring⟩ := below_iff_follow.1 hring
      refine ⟨chain ++ place :: ring, follow_append.2 ⟨n, h, follow_cons.2 ⟨k, hplace, hring⟩⟩, ?_⟩
      rw [List.length_append, List.length_cons]
      omega

/-! ### Levels -/

/-- The chains of a number of edges from the root, with their ends. -/
def chains (t : RouteTree) : Nat → List (List Nat × NodeId)
  | 0 => [([], t.root)]
  | k + 1 => (t.chains k).flatMap fun x => (t.kids x.2).zipIdx.map fun y => (x.1 ++ [y.2], y.1)

/-- The chains of at most a number of edges from the root, the shortest first. -/
def chainsUpTo (t : RouteTree) : Nat → List (List Nat × NodeId)
  | 0 => t.chains 0
  | k + 1 => t.chainsUpTo k ++ t.chains (k + 1)

/-- The ends of the chains of a number of edges. -/
def level (t : RouteTree) (k : Nat) : List NodeId :=
  (t.chains k).map (·.2)

/-- The ends of the chains of at most a number of edges. -/
def upTo (t : RouteTree) (k : Nat) : List NodeId :=
  (t.chainsUpTo k).map (·.2)

variable {k : Nat}

/-- The next level holds the children of a level in their order, which is the order a copy finds
them in. -/
theorem level_succ (t : RouteTree) (k : Nat) : t.level (k + 1) = (t.level k).flatMap t.kids := by
  simp only [level, chains, List.map_flatMap, List.flatMap_map, List.map_map]
  exact congrArg (List.flatMap · (t.chains k)) (funext fun x => List.zipIdx_map_fst 0 _)

/-- Down to the root itself there is the root. -/
theorem upTo_zero (t : RouteTree) : t.upTo 0 = [t.root] := rfl

/-- Down to the next level there is that level more. -/
theorem upTo_succ (t : RouteTree) (k : Nat) : t.upTo (k + 1) = t.upTo k ++ t.level (k + 1) :=
  List.map_append

/-- The chains of a length are those that lead somewhere. -/
theorem mem_chains : (chain, n) ∈ t.chains k ↔
    chain.length = k ∧ t.follow t.root chain = some n := by
  induction k generalizing chain n with
  | zero =>
      rw [chains, List.mem_singleton, Prod.mk.injEq, List.length_eq_zero_iff]
      refine and_congr_right fun h => ?_
      rw [h, follow, Option.some.injEq, eq_comm]
  | succ k ih =>
      simp only [chains, List.mem_flatMap, List.mem_map, Prod.exists, Prod.mk.injEq]
      constructor
      · rintro ⟨init, p, hinit, kid, place, hkid, rfl, rfl⟩
        obtain ⟨hlen, hp⟩ := ih.1 hinit
        exact ⟨by simp [hlen], follow_snoc.2 ⟨p, hp, List.mem_zipIdx_iff_getElem?.1 hkid⟩⟩
      · rintro ⟨hlen, h⟩
        cases chain using List.reverseRecOn with
        | nil => simp at hlen
        | append_singleton init place =>
            obtain ⟨p, hp, hplace⟩ := follow_snoc.1 h
            exact ⟨init, p, ih.2 ⟨by simpa using hlen, hp⟩, n, place,
              List.mem_zipIdx_iff_getElem?.2 hplace, rfl, rfl⟩

/-- A level holds the ends of the chains of its depth, a node for each chain to it. -/
theorem mem_level : n ∈ t.level k ↔
    ∃ chain, chain.length = k ∧ t.follow t.root chain = some n := by
  simp only [level, List.mem_map, Prod.exists, mem_chains, exists_eq_right]

/-- Below a level without nodes there are none. -/
theorem level_add_eq_nil (h : t.level k = []) (more : Nat) : t.level (k + more) = [] := by
  induction more with
  | zero => exact h
  | succ more ih => rw [← Nat.add_assoc, level_succ, ih, List.flatMap_nil]

/-- Over a ring there is a node on every level. -/
theorem level_ne_nil (hbelow : t.Below t.root n) {next : NodeId} (hnext : next ∈ t.kids n)
    (hring : t.Below next n) (k : Nat) : t.level k ≠ [] := by
  obtain ⟨chain, h, hlen⟩ := exists_long hbelow hnext hring k
  obtain ⟨more, hmore⟩ := Nat.exists_eq_add_of_le hlen
  intro hnil
  have hmem : n ∈ t.level chain.length := mem_level.2 ⟨chain, rfl, h⟩
  rw [hmore, level_add_eq_nil hnil] at hmem
  exact List.not_mem_nil hmem

/-- A node so many levels down as the row has nodes is there over a ring. -/
theorem exists_ring_of_level (hrow : ∀ p, ∀ n ∈ t.kids p, n < t.size) (hroot : t.root < t.size)
    (hlong : t.size ≤ k) (hne : t.level k ≠ []) :
    ∃ n, t.Below t.root n ∧ ∃ next ∈ t.kids n, t.Below next n := by
  obtain ⟨last, hlast⟩ := List.exists_mem_of_ne_nil _ hne
  obtain ⟨chain, rfl, hchain⟩ := mem_level.1 hlast
  obtain ⟨n, before, ring, -, -, hring, -, hbefore, hround, -⟩ :=
    exists_ring hrow hroot hchain hlong
  obtain ⟨place, rest, rfl⟩ := List.exists_cons_of_ne_nil hring
  obtain ⟨next, hnext, hrest⟩ := follow_cons.1 hround
  exact ⟨n, below_iff_follow.2 ⟨before, hbefore⟩, next, List.mem_iff_getElem?.2 ⟨place, hnext⟩,
    below_iff_follow.2 ⟨rest, hrest⟩⟩

/-- The nodes of the first levels come first. -/
theorem upTo_prefix_add (t : RouteTree) (k more : Nat) : t.upTo k <+: t.upTo (k + more) := by
  induction more with
  | zero => exact List.prefix_rfl
  | succ more ih =>
      rw [← Nat.add_assoc, upTo_succ]
      exact ih.trans (List.prefix_append ..)

/-- A chain is listed once. -/
theorem nodup_chains (t : RouteTree) (k : Nat) : (t.chains k).Nodup := by
  induction k with
  | zero => simp [chains]
  | succ k ih =>
      refine List.nodup_flatMap.2 ⟨fun x _ => ?_, ih.imp_of_mem fun {x y} hx hy hne => ?_⟩
      · have hplaces : ((t.kids x.2).zipIdx.map (·.2)).Nodup := by
          rw [List.zipIdx_map_snd]
          exact List.nodup_range'
        refine (List.Nodup.of_map _ hplaces).map ?_
        rintro ⟨m, i⟩ ⟨n, j⟩ heq
        obtain ⟨hplace, rfl⟩ := Prod.mk.inj heq
        simpa using hplace
      · -- Chains that are one when an edge is added were one before, with one end.
        rintro z hz hz'
        obtain ⟨y', -, rfl⟩ := List.mem_map.1 hz
        obtain ⟨y'', -, heq⟩ := List.mem_map.1 hz'
        obtain ⟨hchain, -⟩ := List.append_inj' (Prod.mk.inj heq).1 rfl
        have hend := (mem_chains.1 hx).2.symm.trans (hchain ▸ (mem_chains.1 hy).2)
        exact hne (Prod.ext hchain.symm (Option.some.inj hend))

/-- The chains up to a length are those no longer that lead somewhere. -/
theorem mem_chainsUpTo : (chain, n) ∈ t.chainsUpTo k ↔
    chain.length ≤ k ∧ t.follow t.root chain = some n := by
  induction k with
  | zero => rw [chainsUpTo, mem_chains, Nat.le_zero]
  | succ k ih =>
      rw [chainsUpTo, List.mem_append, ih, mem_chains, ← or_and_right, Nat.le_add_one_iff]

/-- No chain is listed twice, although its end may be. -/
theorem nodup_chainsUpTo (t : RouteTree) (k : Nat) : (t.chainsUpTo k).Nodup := by
  induction k with
  | zero => exact t.nodup_chains 0
  | succ k ih =>
      refine List.nodup_append.2 ⟨ih, t.nodup_chains _, ?_⟩
      rintro x hx y hy rfl
      have := (mem_chainsUpTo.1 hx).1
      have := (mem_chains.1 hy).1
      omega

end Multicast.RouteTree
