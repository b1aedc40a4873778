import Multicast.Growth.Attach
import Multicast.Proofs.Growth.Anchor
import Multicast.Proofs.Tree.Forest

/-!
# `Multicast.Proofs.Growth.Attach`: trees under construction

`Growth.Sound` is the invariant of a tree under construction: a tree below its root,
with the index of its chips, where `hung` lists the endpoints hung up so far and the
chips that may forward nowhere are a parameter. Adding a node keeps it
(`Sound.addChild`), hence so does a chain of hops; a chain that succeeds adds the
chips of its hops to the tree (`Sound.chain`), and one over new chips succeeds
(`chain_done`).

A new chip is attached along the straight runs from its anchor, or from the root where
it has none (`attach_eq`). `Sound.attachAll` says what is left of the invariant for
chips that may lie anywhere, where an attempt can fail.
-/

set_option autoImplicit false

namespace Multicast.Growth

open Grid (endOf)

/-- The endings a node on a chip has for some endpoints. -/
def hangsOff (hung : List Endpoint) (c : Chip) : List (Option Route × Endpoint) :=
  (hung.filter fun e => e.chip == c).map fun e => (some e.route, e)

/-- A tree with the index of its chips. -/
structure Sound (excused : Chip → Prop) (hung : List Endpoint) (g : Growth) : Prop where
  forest : g.tree.IsForest
  root : g.tree.root = 0
  top : ∀ {n}, g.tree.IsTop n ↔ n = 0
  indexed : ∀ {c n}, g.index.get? c = some n ↔ g.tree.chip? n = some c
  endings : ∀ {n c}, g.tree.chip? n = some c → g.tree.endings n = hangsOff hung c
  leaf : ∀ {n c}, g.tree.isLeaf n = true → g.tree.chip? n = some c → n = 0 ∨ excused c

variable {g g' : Growth} {excused excused' : Chip → Prop} {hung : List Endpoint} {a c : Chip}
  {p : NodeId} {grid : Grid} {radius : Nat}

/-- A chip is in the tree when the index has a node for it. -/
theorem contains_iff_exists : g.index.contains c = true ↔ ∃ n, g.index.get? c = some n := by
  rw [ChipIndex.contains_eq_isSome, Option.isSome_iff_exists]

/-- The root alone, with nothing hung up, is where every construction starts. -/
theorem sound_single (c : Chip) (excused : Chip → Prop) : Sound excused [] (single c) where
  forest := RouteTree.isForest_single c
  root := rfl
  top := RouteTree.isTop_single
  indexed {b n} := by
    show (ChipIndex.empty.set c 0).get? b = some n ↔ (RouteTree.single c).chip? n = some b
    rw [ChipIndex.get?_set, RouteTree.chip?_single, ChipIndex.get?_empty]
    simp only [Option.ite_none_right_eq_some, Option.some.injEq]
    exact ⟨fun h => ⟨h.2.symm, h.1.symm⟩, fun h => ⟨h.2.symm, h.1.symm⟩⟩
  endings {n b} _ := RouteTree.endings_single c n
  leaf _ hc := .inl (RouteTree.chip?_single.1 hc).1

/-- The root alone is on its chip. -/
theorem contains_single : (single c).index.contains a = true ↔ a = c := by
  have hsound := sound_single c fun _ => True
  simp only [contains_iff_exists, hsound.indexed]
  exact ⟨fun ⟨_, hn⟩ => (RouteTree.chip?_single.1 hn).2.symm,
    fun ha => ⟨0, RouteTree.chip?_single.2 ⟨rfl, ha.symm⟩⟩⟩

namespace Sound

/-- The chip of the root is the one the index has node zero for. -/
theorem rootChip (h : Sound excused hung g) (hstart : g.index.get? c = some 0) :
    g.rootChip = c := by
  rw [Growth.rootChip, h.root, h.indexed.1 hstart]
  rfl

/-- More chips may be excused from forwarding without harm to the rest of the invariant. -/
theorem mono (h : Sound excused hung g) (hex : ∀ c, excused c → excused' c) :
    Sound excused' hung g :=
  { h with leaf := fun hn hc => (h.leaf hn hc).imp_right (hex _) }

/-- No two nodes of a tree under construction are on one chip, since the index has room for one. -/
theorem alone (h : Sound excused hung g) {m n : NodeId} (hm : g.tree.chip? m = some c)
    (hn : g.tree.chip? n = some c) : m = n :=
  Option.some.inj ((h.indexed.2 hm).symm.trans (h.indexed.2 hn))

/-- Every node is below the root. -/
theorem below (h : Sound excused hung g) {n : NodeId} (hn : n < g.tree.size) :
    g.tree.Below g.tree.root n := by
  obtain ⟨r, hr, hb⟩ := h.forest.below_top hn
  rw [h.root]
  exact h.top.1 hr ▸ hb

/-- A new node on a new chip is the one the index gets for it; the nodes before it keep theirs. -/
theorem indexed_addChild (h : Sound excused hung g) (hnew : g.index.get? c = none) (p : NodeId)
    (route : Option Route) {b : Chip} {n : NodeId} :
    (g.index.set c g.tree.size).get? b = some n ↔
      (g.tree.addChild p route c).chip? n = some b := by
  rw [ChipIndex.get?_set, RouteTree.chip?_addChild]
  by_cases hb : b = c
  · subst hb
    rw [if_pos rfl]
    constructor
    · intro hn
      rw [← Option.some.inj hn, if_pos rfl]
    · intro hn
      split at hn
      · next heq => rw [heq]
      · exact absurd (h.indexed.2 hn) (by simp [hnew])
  · rw [if_neg hb, h.indexed]
    split
    · next hn =>
      -- No node had the number that the new one gets.
      subst hn
      have hnone : g.tree.chip? g.tree.size ≠ some b := fun hsome =>
        Nat.lt_irrefl _ (RouteTree.lt_size_of_chip? hsome)
      simp [hnone, Ne.symm hb]
    · exact Iff.rfl

/-- With a new node below another, what forwards nowhere is the new node or did so before, and the
parent needs no excuse any more. -/
theorem leaf_addChild (h : Sound (fun b => excused b ∨ b = a) hung g)
    (hp : g.tree.chip? p = some a) {route : Option Route} {b : Chip} {n : NodeId}
    (hn : (g.tree.addChild p route c).isLeaf n = true)
    (hb : (g.tree.addChild p route c).chip? n = some b) : n = 0 ∨ excused b ∨ b = c := by
  have hlt : p < (g.tree.addNode c).size := by
    rw [RouteTree.size_addNode]
    exact Nat.lt_succ_of_lt (RouteTree.lt_size_of_chip? hp)
  rw [RouteTree.chip?_addChild] at hb
  -- An older node is a leaf only if it was one, and the parent of the new one is none now.
  split at hb
  · exact .inr (.inr (Option.some.inj hb).symm)
  · rw [RouteTree.addChild_eq, RouteTree.isLeaf_iff, RouteTree.kids_addEdge_node hlt,
      RouteTree.kids_addNode, RouteTree.endings_addEdge_node hlt, RouteTree.endings_addNode] at hn
    have hnp : n ≠ p := by
      rintro rfl
      simp at hn
    rw [if_neg hnp, ← RouteTree.isLeaf_iff] at hn
    refine (h.leaf hn hb).imp_right fun hx => .inl (hx.resolve_right ?_)
    rintro rfl
    exact hnp (h.alone hb hp)

/-- A new chip is added below a node, which needs no excuse then. -/
theorem addChild (h : Sound (fun b => excused b ∨ b = a) [] g) (hp : g.tree.chip? p = some a)
    (hnew : g.index.get? c = none) (route : Option Route) :
    Sound (fun b => excused b ∨ b = c) []
      ⟨g.tree.addChild p route c, g.index.set c g.tree.size⟩ := by
  have hlt := RouteTree.lt_size_of_chip? hp
  have hlt' : p < (g.tree.addNode c).size := by
    rw [RouteTree.size_addNode]
    exact Nat.lt_succ_of_lt hlt
  have htop : (g.tree.addNode c).IsTop g.tree.size :=
    (h.forest.isTop_addNode c).2 (.inr rfl)
  -- A node is added as a tree of its own, and an edge to its top then hangs it up.
  refine ⟨?_, h.root, ?_, h.indexed_addChild hnew p route, ?_, h.leaf_addChild hp⟩
  · rw [RouteTree.addChild_eq]
    exact (h.forest.addNode c).attach hlt' route htop (RouteTree.not_below_newest hlt c)
  · intro n
    rw [RouteTree.addChild_eq, RouteTree.isTop_attach hlt', h.forest.isTop_addNode, h.top]
    constructor
    · exact fun hn => hn.1.resolve_right hn.2
    · rintro rfl
      exact ⟨.inl rfl, Nat.ne_of_lt (h.top.2 rfl).1⟩
  · intro n b hn
    rw [RouteTree.addChild_eq, RouteTree.endings_addEdge_node hlt', RouteTree.endings_addNode]
    rw [RouteTree.chip?_addChild] at hn
    split at hn
    · next heq =>
      rw [heq, RouteTree.endings, RouteTree.edges_eq_nil (Nat.le_refl _)]
      rfl
    · exact h.endings hn

end Sound

/-! ### Chains of hops -/

/-- From one tree to another the chips kept their nodes, and the given chips came. -/
structure Gains (g g' : Growth) (chips : List Chip) : Prop where
  kept : ∀ {c n}, g.index.get? c = some n → g'.index.get? c = some n
  contains : ∀ {c}, g'.index.contains c = true ↔ g.index.contains c = true ∨ c ∈ chips

/-- To do nothing adds no chips. -/
theorem Gains.refl (g : Growth) : Gains g g [] :=
  ⟨id, by simp⟩

/-- What two parts of a construction add, they add together. -/
theorem Gains.trans {g'' : Growth} {chips chips' : List Chip} (h : Gains g g' chips)
    (h' : Gains g' g'' chips') : Gains g g'' (chips ++ chips') where
  kept hn := h'.kept (h.kept hn)
  contains {c} := by
    rw [h'.contains, h.contains, List.mem_append, or_assoc]

/-- A node on a new chip adds that chip, and keeps the numbers of those before it. -/
theorem Gains.addChild (hnew : g.index.get? c = none) (p : NodeId) (route : Option Route) :
    Gains g ⟨g.tree.addChild p route c, g.index.set c g.tree.size⟩ [c] where
  kept {b n} hn := by
    show (g.index.set c _).get? b = some n
    rw [ChipIndex.get?_set, if_neg, hn]
    rintro rfl
    simp [hnew] at hn
  contains {b} := by
    show (g.index.set c _).contains b = true ↔ _
    rw [ChipIndex.contains_eq_isSome, ChipIndex.contains_eq_isSome, ChipIndex.get?_set,
      List.mem_singleton]
    by_cases hb : b = c <;> simp [hb]

/-- A hop to a new chip goes on with the rest. -/
theorem chain_cons (hlast : p < g.tree.size) {hop : Hop} (hnew : g.index.get? hop.chip = none)
    (rest : List Hop) :
    g.chain p (hop :: rest) =
      chain ⟨g.tree.addChild p (some (.link hop.link)) hop.chip,
        g.index.set hop.chip g.tree.size⟩ g.tree.size rest := by
  have hno : g.index.contains hop.chip = false := by
    rw [ChipIndex.contains_eq_isSome, hnew]
    rfl
  rw [chain, if_neg (by simp [hno])]
  simp only [RouteTree.newest_addChild, RouteTree.size_addChild]
  rw [if_pos (Nat.lt_succ_of_lt hlast)]

/-- A chain goes no further than to a chip that is new. -/
theorem new_of_chain {hop : Hop} {rest : List Hop}
    (hdone : (g.chain p (hop :: rest)).error? = none) : g.index.get? hop.chip = none := by
  by_contra hold
  obtain ⟨n, hn⟩ := Option.ne_none_iff_exists'.1 hold
  rw [Growth.chain, if_pos (contains_iff_exists.2 ⟨n, hn⟩)] at hdone
  contradiction

/-- A chain that succeeds adds the chips of its hops, and only its end may forward nowhere. -/
theorem Sound.chain {hops : List Hop} (h : Sound (fun b => excused b ∨ b = a) [] g)
    (hlast : g.tree.chip? p = some a) (hdone : (g.chain p hops).error? = none) :
    Sound (fun b => excused b ∨ b = endOf a hops) [] (g.chain p hops).growth ∧
      Gains g (g.chain p hops).growth (hops.map (·.chip)) := by
  -- On the hops, with the node the last one landed on: it alone is excused so far.
  induction hops generalizing g a p with
  | nil => exact ⟨h, .refl g⟩
  | cons hop rest ih =>
      have hnew := new_of_chain hdone
      have hnext := h.addChild hlast hnew (some (.link hop.link))
      rw [chain_cons (RouteTree.lt_size_of_chip? hlast) hnew] at hdone ⊢
      obtain ⟨hsound, hgains⟩ := ih hnext (by simp) hdone
      rw [Grid.endOf_cons]
      exact ⟨hsound, (Gains.addChild hnew p _).trans hgains⟩

/-- A chain over new chips succeeds. -/
theorem chain_done {hops : List Hop} (hlast : p < g.tree.size)
    (hnew : ∀ hop ∈ hops, g.index.get? hop.chip = none)
    (hnodup : (hops.map (·.chip)).Nodup) : (g.chain p hops).error? = none := by
  induction hops generalizing g p with
  | nil => rfl
  | cons hop rest ih =>
      rw [chain_cons hlast (hnew hop (List.mem_cons_self ..))]
      -- The chips still to come are new also to the index with this one, as they are all different.
      refine ih (by simp) (fun x hx => ?_) (List.nodup_cons.1 hnodup).2
      have hne : x.chip ≠ hop.chip := fun heq =>
        (List.nodup_cons.1 hnodup).1 (List.mem_map.2 ⟨x, hx, heq⟩)
      rw [ChipIndex.get?_set, if_neg hne]
      exact hnew x (List.mem_cons_of_mem _ hx)

/-- A branch that is hung up adds its chips. -/
theorem Sound.append {b : Anchor.Branch} (h : Sound excused [] g)
    (hdone : (g.append b).error? = none) :
    Sound (fun c => excused c ∨ c = endOf b.anchor b.hops) [] (g.append b).growth ∧
      Gains g (g.append b).growth (b.hops.map (·.chip)) ∧ g.index.contains b.anchor = true := by
  unfold Growth.append at hdone ⊢
  cases hn : g.index.get? b.anchor with
  | none =>
      rw [hn] at hdone
      contradiction
  | some n =>
      rw [hn] at hdone
      obtain ⟨hsound, hgains⟩ := Sound.chain (h.mono fun _ => .inl) (h.indexed.1 hn) hdone
      exact ⟨hsound, hgains, contains_iff_exists.2 ⟨n, hn⟩⟩

/-- A branch over new chips can be hung up. The anchor has a node, and the chips of the hops are new
and all different, so nothing is looked up in vain. -/
theorem append_done {b : Anchor.Branch} (h : Sound excused hung g)
    (hanchor : g.index.contains b.anchor = true)
    (hnew : ∀ hop ∈ b.hops, g.index.contains hop.chip = false)
    (hnodup : (b.hops.map (·.chip)).Nodup) : (g.append b).error? = none := by
  obtain ⟨n, hn⟩ := contains_iff_exists.1 hanchor
  unfold Growth.append
  rw [hn]
  refine chain_done (RouteTree.lt_size_of_chip? (h.indexed.1 hn)) (fun hop hhop => ?_) hnodup
  simpa [ChipIndex.contains_eq_isSome] using hnew hop hhop

/-- An attempt without an error is one that is done, with the tree it has made. -/
theorem Attempt.eq_done {x : Attempt} (h : x.error? = none) : x = x.growth.done := by
  cases x
  rw [Growth.done, ← h]

/-- A path ends where it starts or on the chip of a hop. -/
theorem endOf_mem (a : Chip) (hops : List Hop) :
    endOf a hops = a ∨ endOf a hops ∈ hops.map (·.chip) := by
  induction hops generalizing a with
  | nil => exact .inl rfl
  | cons hop rest ih =>
      rw [Grid.endOf_cons, List.map_cons, List.mem_cons]
      exact .inr (ih hop.chip)

/-! ### Attaching chips -/

/-- The chip a path to a new chip starts from: its anchor, or the root if there is none. -/
def startOf (g : Growth) (grid : Grid) (c : Chip) (radius : Nat) : Chip :=
  (Anchor.find grid g.index c radius).getD g.rootChip

/-- A new chip is attached along the part of the straight runs that lies behind the tree. -/
theorem attach_eq {hops : List Hop} (hno : g.index.contains c = false)
    (hok : grid.straightRuns (g.startOf grid c radius) c = .ok hops) :
    g.attach grid c radius =
      g.append (Anchor.truncate g.index.contains (g.startOf grid c radius) hops) := by
  unfold startOf at hok ⊢
  rw [Growth.attach, if_neg (by simp [hno])]
  simp only [hok]

/-- The path to a chip of the grid starts from a chip of the tree no farther than the root. The
anchor is a nearest chip of the tree if there is one in the radius, and the root is a chip of the
tree. -/
theorem startOf_spec (hin : ∀ b, g.index.contains b = true → grid.contains b = true)
    (hroot : g.index.contains g.rootChip = true) (hc : grid.contains c = true) (radius : Nat) :
    g.index.contains (g.startOf grid c radius) = true ∧
      grid.distance (g.startOf grid c radius) c ≤ grid.distance g.rootChip c := by
  have hnearest := Anchor.find_nearest hin hc radius
  unfold startOf
  cases hfind : Anchor.find grid g.index c radius with
  | none => exact ⟨hroot, Nat.le_refl _⟩
  | some a =>
      rw [hfind] at hnearest
      obtain ⟨hmem, -, hmin⟩ := hnearest
      exact ⟨ChipIndex.mem_chips.1 hmem, hmin _ (ChipIndex.mem_chips.2 hroot)⟩

/-- What an attempt to attach a chip that succeeds does, whatever the chips are. -/
theorem Sound.attach (h : Sound excused [] g) (hdone : (g.attach grid c radius).error? = none) :
    ∃ chips, Sound (fun _ => True) [] (g.attach grid c radius).growth ∧
      Gains g (g.attach grid c radius).growth chips := by
  have hh : Sound (fun _ => True) [] g := h.mono fun _ _ => trivial
  unfold Growth.attach at hdone ⊢
  split
  · exact ⟨[], hh, .refl g⟩
  · next hno =>
    rw [if_neg hno] at hdone
    cases hruns : grid.straightRuns ((Anchor.find grid g.index c radius).getD g.rootChip) c with
    | error e =>
        simp only [hruns] at hdone
        contradiction
    | ok hops =>
        simp only [hruns] at hdone ⊢
        obtain ⟨hsound, hgains, -⟩ := h.append hdone
        exact ⟨_, hsound.mono fun _ _ => trivial, hgains⟩

/-- An attempt results in a tree when it has no error, and the tree is the one it has made. -/
theorem Attempt.result_eq_ok {x : Attempt} :
    x.result = .ok g' ↔ x.error? = none ∧ x.growth = g' := by
  unfold Attempt.result
  cases x.error? with
  | none => simp
  | some e => simp

/-- All chips of a list are attached when each attempt succeeds. By induction on the chips. The
attempts are for chips that may lie anywhere, so an attempt that succeeds is all there is to go by,
and the leaves are not known any more. -/
theorem Sound.attachAll {chips : List Chip} (h : Sound (fun _ => True) [] g)
    (hok : g.attachAll grid radius chips = .ok g') :
    Sound (fun _ => True) [] g' ∧ ∃ new, Gains g g' new := by
  induction chips generalizing g with
  | nil =>
      obtain rfl := Except.ok.inj hok
      exact ⟨h, [], .refl g⟩
  | cons c rest ih =>
      rw [Growth.attachAll] at hok
      cases hstep : (g.attach grid c radius).result with
      | error e =>
          rw [hstep] at hok
          contradiction
      | ok next =>
          rw [hstep] at hok
          obtain ⟨hdone, rfl⟩ := Attempt.result_eq_ok.1 hstep
          obtain ⟨chips, hsound, hgains⟩ := h.attach hdone
          obtain ⟨hsound', new, hgains'⟩ := ih hsound hok
          exact ⟨hsound', _, hgains.trans hgains'⟩

/-! ### Hanging up endpoints -/

/-- One endpoint more hangs off its own chip, last, and off no other. Endpoints are hung up one
after another, so this is the step of `Sound.addTerminals`. -/
theorem hangsOff_append (hung : List Endpoint) (e : Endpoint) (c : Chip) :
    hangsOff (hung ++ [e]) c =
      hangsOff hung c ++ if e.chip = c then [(some e.route, e)] else [] := by
  rw [hangsOff, List.filter_append, List.map_append, hangsOff]
  by_cases hc : e.chip = c <;> simp [hc]

/-- An endpoint is hung off the node on its chip. The endpoint goes to the node that the index has
for its chip. That node is no leaf any more; all others hang up what they did. -/
theorem Sound.addTerminal (h : Sound excused hung g) {e : Endpoint} {n : NodeId}
    (hn : g.index.get? e.chip = some n) :
    Sound excused (hung ++ [e])
      { g with tree := g.tree.addEdge n ⟨some e.route, .terminal e⟩ } := by
  have hchip := h.indexed.1 hn
  have hlt := RouteTree.lt_size_of_chip? hchip
  have hkids := RouteTree.kids_addEdge_terminal hlt (some e.route) e
  refine ⟨h.forest.of_kids (by simp) hkids, h.root, ?_, ?_, ?_, ?_⟩
  · intro m
    rw [RouteTree.isTop_congr (by simp) hkids]
    exact h.top
  · intro c m
    rw [RouteTree.chip?_addEdge]
    exact h.indexed
  · intro m c hm
    rw [RouteTree.chip?_addEdge] at hm
    rw [RouteTree.endings_addEdge_terminal hlt, hangsOff_append, h.endings hm]
    by_cases hmn : m = n
    · subst hmn
      rw [if_pos rfl, if_pos (Option.some.inj (hchip.symm.trans hm))]
    · rw [if_neg hmn, if_neg, List.append_nil]
      -- Two nodes on one chip would be the same node.
      rintro rfl
      exact hmn (h.alone hm hchip)
  · intro m c hm hc
    rw [RouteTree.chip?_addEdge] at hc
    rw [RouteTree.isLeaf_iff, hkids, RouteTree.endings_addEdge_terminal hlt] at hm
    have hmn : m ≠ n := by
      rintro rfl
      simp at hm
    rw [if_neg hmn, ← RouteTree.isLeaf_iff] at hm
    exact h.leaf hm hc

/-- Endpoints are hung up as long as their chips are in the tree. By induction on the endpoints,
each hung up behind those before it. -/
theorem Sound.addTerminals {source : Chip} {endpoints : List Endpoint} (h : Sound excused hung g)
    (hok : g.addTerminals source endpoints = .ok g') :
    Sound excused (hung ++ endpoints) g' ∧ g'.index = g.index ∧
      ∀ e ∈ endpoints, g.index.contains e.chip = true := by
  induction endpoints generalizing g hung with
  | nil =>
      obtain rfl := Except.ok.inj hok
      rw [List.append_nil]
      exact ⟨h, rfl, by simp⟩
  | cons e rest ih =>
      rw [Growth.addTerminals, Growth.addTerminal] at hok
      cases hn : g.index.get? e.chip with
      | none =>
          simp only [hn] at hok
          contradiction
      | some n =>
          simp only [hn] at hok
          obtain ⟨hsound, hindex, hrest⟩ := ih (h.addTerminal hn) hok
          refine ⟨by simpa using hsound, hindex, fun x hx => ?_⟩
          rcases List.mem_cons.1 hx with rfl | hx
          · exact contains_iff_exists.2 ⟨n, hn⟩
          · exact hrest x hx

/-- Endpoints on chips of the tree can all be hung up: the look-up of a chip is the one thing that
can fail there. -/
theorem addTerminals_ok (source : Chip) {endpoints : List Endpoint}
    (h : ∀ e ∈ endpoints, g.index.contains e.chip = true) :
    ∃ g', g.addTerminals source endpoints = .ok g' := by
  induction endpoints generalizing g with
  | nil => exact ⟨g, rfl⟩
  | cons e rest ih =>
      obtain ⟨n, hn⟩ := contains_iff_exists.1 (h e (List.mem_cons_self ..))
      rw [Growth.addTerminals, Growth.addTerminal, hn]
      exact ih fun x hx => h x (List.mem_cons_of_mem _ hx)

end Multicast.Growth
