import Multicast.Proofs.Growth.Spread

/-!
# `Multicast.Proofs.Growth.Shape`: what a grown tree looks like

Growing a tree never fails half-way (`Fabric.spread_ends`). It is refused for a chip
off the grid or a dead source, and otherwise answers a tree that `Connects` the source
to the sinks: over links of the grid, with one node on a chip and the index of these
nodes, with nothing that leads nowhere, and with no more nodes than there would be on
a path of its own to each sink.

With radius zero no anchor is ever found (`startOf_zero`), so all paths start from the
source. They are shortest paths, along which the distance from the source grows by one
with every hop (`along_farther`). This holds of every edge then, wherever a path is cut,
and the depth of a node is the distance of its chip (`Fabric.spread_zero_depth`).
-/

set_option autoImplicit false

namespace Multicast

namespace RouteTree

/-- A node that so many edges below the root lead to. -/
def AtDepth (t : RouteTree) (n : NodeId) (depth : Nat) : Prop :=
  ∃ chain, t.follow t.root chain = some n ∧ chain.length = depth

end RouteTree

namespace Growth

variable {g : Growth} {grid : Grid} {rule : Chip → Direction → Chip → Prop} {excused : Chip → Prop}
  {source a b c : Chip} {sinks : List Chip} {hops : List Hop} {n : NodeId}

/-! ### The tree answered -/

/-- A tree from a source to some sinks over the links of a grid, with the index of its chips. -/
structure Connects (grid : Grid) (source : Chip) (sinks : List Chip) (g : Growth) : Prop where
  proper : g.tree.IsProper
  reached : ∀ n < g.tree.size, g.tree.Below g.tree.root n
  alone : ∀ m n c, g.tree.chip? m = some c → g.tree.chip? n = some c → m = n
  root : g.tree.chip? g.tree.root = some source
  edges : ∀ n, ∀ e ∈ g.tree.edges n, ∃ a d m c, g.tree.chip? n = some a ∧
    e = ⟨some (.link d), .node m⟩ ∧ g.tree.chip? m = some c ∧ grid.step a d = some c
  present : ∀ c ∈ sinks, ∃ n, g.tree.chip? n = some c
  leaf : ∀ n c, g.tree.chip? n = some c → g.tree.isLeaf n = true →
    n = g.tree.root ∨ c ∈ sinks
  index : g.index.nodes = g.tree.index.nodes
  size_le : g.tree.size ≤ 1 + (sinks.map (grid.distance source)).sum

/-- The index kept while a tree grows is the one its walk would make. -/
theorem Sound.index_nodes {hung : List Endpoint} (h : Sound excused hung g) :
    g.index.nodes = g.tree.index.nodes := by
  refine Std.ExtTreeMap.ext_getElem? fun c => ?_
  show g.index.get? c = g.tree.index.get? c
  refine Option.ext fun n => ?_
  rw [h.indexed, h.isProper.get?_index]
  exact ⟨fun hc => ⟨h.below (RouteTree.lt_size_of_chip? hc), hc⟩, And.right⟩

/-- While no endpoints hang off a tree, all of its edges lead to nodes. -/
theorem Laid.exists_step (h : Laid grid rule source sinks g) {e : Edge}
    (he : e ∈ g.tree.edges n) : ∃ a d m c, g.tree.chip? n = some a ∧
      e = ⟨some (.link d), .node m⟩ ∧ g.tree.chip? m = some c ∧ rule a d c := by
  obtain ⟨route, child⟩ := e
  cases child with
  | node m =>
      obtain ⟨a, d, c, ha, rfl, hc, hrule⟩ := h.edges (RouteTree.mem_childNodes.2 he)
      exact ⟨a, d, m, c, ha, rfl, hc, hrule⟩
  | terminal endpoint =>
      have hmem := RouteTree.mem_endings.2 he
      have hlt : n < g.tree.size := by
        by_contra hout
        rw [RouteTree.edges_eq_nil (Nat.le_of_not_lt hout)] at he
        exact List.not_mem_nil he
      obtain ⟨c, hc⟩ := RouteTree.exists_chip?_iff.2 hlt
      rw [h.sound.endings hc] at hmem
      exact absurd hmem List.not_mem_nil

/-- A tree laid over steps of the grid connects its source and its sinks. -/
theorem Laid.connects (h : Laid grid (fun a d c => grid.step a d = some c) source sinks g) :
    g.Connects grid source sinks where
  proper := h.sound.isProper
  reached _ hn := h.sound.below hn
  alone _ _ _ hm hn := h.sound.alone hm hn
  root := by
    rw [h.sound.root]
    exact h.sound.indexed.1 h.start
  edges _ _ he := h.exists_step he
  present c hc := by
    obtain ⟨n, hn⟩ := contains_iff_exists.1 (h.present c hc)
    exact ⟨n, h.sound.indexed.1 hn⟩
  leaf n c hc hleaf := by
    rw [h.sound.root]
    exact h.sound.leaf hleaf hc
  index := h.sound.index_nodes
  size_le := h.size_le

/-! ### Depths -/

/-- A hop away from the source. -/
def Farther (grid : Grid) (source a : Chip) (_ : Direction) (c : Chip) : Prop :=
  grid.distance source c = grid.distance source a + 1

/-- A walk that gains as much distance from the source as it has hops gains some with each. Each hop
gains one at most, by the triangle inequality, and so does each of the rest; together they have to
gain one each. -/
theorem along_farther (hsource : grid.contains source = true) (ha : grid.contains a = true)
    (hb : grid.contains b = true) (h : grid.IsWalk a hops b)
    (hlength : grid.distance source a + hops.length = grid.distance source b) :
    Along (Farther grid source) a hops := by
  induction hops generalizing a with
  | nil => trivial
  | cons hop rest ih =>
      obtain ⟨hstep, hrest⟩ := h
      have hin : grid.contains hop.chip = true := (Grid.mem_offset ha hstep).1
      have hfirst : grid.IsWalk a [hop] hop.chip := ⟨hstep, rfl⟩
      -- One hop gains one at most, and the rest no more than one each.
      have hgain := Grid.distance_triangle hsource ha hin
      have hgain' := Grid.distance_triangle hsource hin hb
      have hone : grid.distance a hop.chip ≤ 1 := hfirst.distance_le ha
      have hless := hrest.distance_le hin
      rw [List.length_cons] at hlength
      have hfarther : grid.distance source hop.chip = grid.distance source a + 1 := by
        omega
      exact ⟨hfarther, ih hin hrest (by omega)⟩

/-- Within radius zero of a new chip there is nothing, so the path to it starts from the source. -/
theorem Laid.startOf_zero (h : Laid grid rule source sinks g) (hc : grid.contains c = true)
    (hnew : g.index.contains c = false) : g.startOf grid c 0 = source := by
  have hnearest := Anchor.find_nearest h.inside hc 0
  unfold startOf
  cases hfind : Anchor.find grid g.index c 0 with
  | none => exact h.rootChip
  | some a =>
      rw [hfind] at hnearest
      obtain ⟨hmem, hzero, -⟩ := hnearest
      have ha := ChipIndex.mem_chips.1 hmem
      obtain rfl := (Grid.distance_eq_zero (h.inside a ha) hc).1 (Nat.le_zero.1 hzero)
      rw [ha] at hnew
      contradiction

/-- With no search for a nearer anchor each path starts from the source itself, so each of its hops
leads one away from the source. -/
theorem pathsObey_farther (grid : Grid) (source : Chip) :
    PathsObey grid (Farther grid source) source 0 := by
  intro sinks g h c hc hnew hops hok
  rw [h.startOf_zero hc hnew] at hok ⊢
  have hsource := h.inside source h.contains_source
  obtain ⟨hops', hok', hwalk, -, hlength, -⟩ := Grid.straightRuns_walk hsource hc
  obtain rfl := Except.ok.inj (hok'.symm.trans hok)
  refine along_farther hsource hsource hc hwalk ?_
  rw [(Grid.distance_eq_zero hsource hsource).2 rfl, hlength, Nat.zero_add]

/-- Where every edge leads away from the source, depths are distances. By induction on the chain
from its end: the last edge leads one farther than its parent. -/
theorem Laid.length_of_follow (h : Laid grid (Farther grid source) source sinks g)
    {chain : List Nat} (hn : g.tree.follow g.tree.root chain = some n)
    (hc : g.tree.chip? n = some c) : chain.length = grid.distance source c := by
  -- On the chain from its end: the last edge leads one farther than its parent.
  induction chain using List.reverseRecOn generalizing n c with
  | nil =>
      have hroot : g.tree.root = n := Option.some.inj hn
      have hsource := h.inside source h.contains_source
      rw [← hroot, h.sound.root, h.sound.indexed.1 h.start] at hc
      obtain rfl := Option.some.inj hc
      exact ((Grid.distance_eq_zero hsource hsource).2 rfl).symm
  | append_singleton chain place ih =>
      obtain ⟨p, hp, hplace⟩ := RouteTree.follow_snoc.1 hn
      obtain ⟨route, hkid⟩ := RouteTree.mem_kids.1 (List.mem_iff_getElem?.2 ⟨place, hplace⟩)
      obtain ⟨a, d, c', ha, -, hc', hfarther⟩ := h.edges hkid
      obtain rfl := Option.some.inj (hc.symm.trans hc')
      rw [List.length_append, ih hp ha]
      exact hfarther.symm

/-- A node is at one depth only, the distance of its chip: it is below the root by some chain, and
any chain to it has that length. -/
theorem Laid.atDepth_iff (h : Laid grid (Farther grid source) source sinks g)
    (hc : g.tree.chip? n = some c) (depth : Nat) :
    g.tree.AtDepth n depth ↔ depth = grid.distance source c := by
  constructor
  · rintro ⟨chain, hn, rfl⟩
    exact h.length_of_follow hn hc
  · rintro rfl
    obtain ⟨chain, hn⟩ :=
      RouteTree.below_iff_follow.1 (h.sound.below (RouteTree.lt_size_of_chip? hc))
    exact ⟨chain, hn, h.length_of_follow hn hc⟩

end Growth

namespace Fabric

variable {f : Fabric} {source : Chip} {sinks : List Chip}

/-- How growing a tree can end. -/
inductive SpreadEnds (f : Fabric) (source : Chip) (sinks : List Chip) :
    Except RouteError Growth → Prop
  | offMachine {before after : List Chip} {c : Chip} (h : source :: sinks = before ++ c :: after)
      (hbefore : ∀ b ∈ before, f.contains b = true) (hc : f.contains c = false) :
      SpreadEnds f source sinks (.error (.offMachine c))
  | deadRoot (hon : ∀ c ∈ source :: sinks, f.contains c = true)
      (hdead : f.isChip source = false) : SpreadEnds f source sinks (.error (.deadRoot source))
  | grown {g : Growth} (hon : ∀ c ∈ source :: sinks, f.contains c = true)
      (hlive : f.isChip source = true) (h : g.Connects f.toGrid source sinks) :
      SpreadEnds f source sinks (.ok g)

/-- A tree is refused for the first chip that lies off the grid, else for a dead source, and for
nothing else. One that is not refused connects the source to the sinks. -/
theorem spread_ends (f : Fabric) (source : Chip) (sinks : List Chip) (radius : Nat) :
    SpreadEnds f source sinks (f.spread source sinks radius) := by
  cases hoff : f.firstOff? (source :: sinks) with
  | some c =>
      obtain ⟨hc, before, after, hsplit, hbefore⟩ := List.find?_eq_some_iff_append.1 hoff
      rw [spread, hoff]
      exact .offMachine hsplit (fun b hb => by simpa using hbefore b hb) (by simpa using hc)
  | none =>
      have hon := firstOff?_eq_none.1 hoff
      cases hlive : f.isChip source with
      | true =>
          obtain ⟨g, hok, hlaid⟩ :=
            spread_laid (Growth.pathsObey_step f.toGrid source radius) hon hlive
          rw [hok]
          exact .grown hon hlive hlaid.connects
      | false =>
          rw [spread, hoff]
          simp only [hlive, Bool.false_eq_true, if_false]
          exact .deadRoot hon hlive

/-- With radius zero the tree is one of shortest paths: every node is as many edges below the root
as its chip is away from the source, on the way to a sink as well as on one. -/
theorem spread_zero_depth (f : Fabric) (source : Chip) (sinks : List Chip)
    (hlive : f.isChip source = true) (hon : ∀ c ∈ sinks, f.contains c = true) :
    ∃ g, f.spread source sinks 0 = .ok g ∧ (∀ c ∈ sinks, ∃ n, g.tree.chip? n = some c) ∧
      ∀ n c, g.tree.chip? n = some c →
        ∀ depth, g.tree.AtDepth n depth ↔ depth = f.distance source c := by
  have hall : ∀ c ∈ source :: sinks, f.contains c = true :=
    List.forall_mem_cons.2 ⟨contains_of_isChip hlive, hon⟩
  obtain ⟨g, hok, hlaid⟩ := spread_laid (Growth.pathsObey_farther f.toGrid source) hall hlive
  refine ⟨g, hok, fun c hc => ?_, fun n c hc => hlaid.atDepth_iff hc⟩
  obtain ⟨n, hn⟩ := Growth.contains_iff_exists.1 (hlaid.present c hc)
  exact ⟨n, hlaid.sound.indexed.1 hn⟩

/-- The branch to the second of these sinks passes the first one and is cut there, so that four nodes
are enough for both. -/
theorem spread_zero_depth_mesh :
    let f := Fabric.intact { width := 8, height := 8, wraps := false }
    f.isChip ⟨0, 0⟩ = true ∧ (∀ c ∈ [(⟨2, 2⟩ : Chip), ⟨3, 2⟩], f.contains c = true) ∧
      ∃ g, f.spread ⟨0, 0⟩ [⟨2, 2⟩, ⟨3, 2⟩] 0 = .ok g ∧ g.tree.size = 4 ∧
        ∃ n, g.tree.chip? n = some ⟨3, 2⟩ ∧ g.tree.AtDepth n 3 := by
  intro f
  have hlive : f.isChip ⟨0, 0⟩ = true := by decide
  have hon : ∀ c ∈ [(⟨2, 2⟩ : Chip), ⟨3, 2⟩], f.contains c = true := by decide
  have hsize : (f.spread ⟨0, 0⟩ [⟨2, 2⟩, ⟨3, 2⟩] 0).map (·.tree.size) = .ok 4 := by decide +kernel
  obtain ⟨g, hok, hpresent, hdepth⟩ := spread_zero_depth f ⟨0, 0⟩ [⟨2, 2⟩, ⟨3, 2⟩] hlive hon
  rw [hok] at hsize
  obtain ⟨n, hn⟩ := hpresent ⟨3, 2⟩ (by simp)
  exact ⟨hlive, hon, g, hok, Except.ok.inj hsize, n, hn, (hdepth n ⟨3, 2⟩ hn 3).2 (by decide)⟩

end Fabric

end Multicast
