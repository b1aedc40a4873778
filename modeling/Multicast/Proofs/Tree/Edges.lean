import Multicast.Proofs.Search.Walk
import Multicast.Tree.Walk

/-!
# `Multicast.Proofs.Tree.Edges`: what a change does to the edges of a tree

A tree is changed by `addNode`, `addEdge`, `addChild` and `removeEdge`. The edges
that leave a node are of two kinds, so a node is read through two lists: `kids`,
the nodes its edges lead to, and `endings`, the endpoints that hang off it. For
each change and each of `chip?`, `childNodes`, `kids` and `endings` there is one
equation; no later proof looks at the row of nodes. `EdgesObey` says that all edges
between nodes obey some rule, which adding a node by such an edge keeps.

`parent?_eq_some` and `parent?_eq_none` say what the search for a parent finds.
`Below` is the relation "reached over edges".
-/

set_option autoImplicit false

namespace Multicast

/-- The node an edge leads to, if it leads to a node. -/
def Edge.kid? (e : Edge) : Option NodeId :=
  match e.child with
  | .node n => some n
  | .terminal _ => none

/-- The endpoint an edge leads to, if it leads to one, with the way out. -/
def Edge.ending? (e : Edge) : Option (Option Route × Endpoint) :=
  match e.child with
  | .node _ => none
  | .terminal endpoint => some (e.route, endpoint)

/-- An edge to a node is the way out and the node. -/
theorem Edge.eq_of_kid? {e : Edge} {n : NodeId} (h : e.kid? = some n) : e = ⟨e.route, .node n⟩ := by
  obtain ⟨route, child⟩ := e
  cases child with
  | node id => exact congrArg (Edge.mk route ∘ Child.node) (Option.some.inj h)
  | terminal endpoint => contradiction

namespace RouteTree

/-- The nodes that the edges of a node lead to, one for each edge. -/
def kids (t : RouteTree) (p : NodeId) : List NodeId :=
  (t.edges p).filterMap Edge.kid?

/-- The endpoints that hang off a node, each with its way out. -/
def endings (t : RouteTree) (n : NodeId) : List (Option Route × Endpoint) :=
  (t.edges n).filterMap Edge.ending?

/-- A chain of edges leads from one node to another. -/
def Below (t : RouteTree) : NodeId → NodeId → Prop :=
  Search.Reaches t.childNodes

variable {t : RouteTree} {m n p : NodeId} {c : Chip}

/-- The children of a node are those the walks follow, without the ways out. -/
theorem kids_eq (t : RouteTree) (p : NodeId) : t.kids p = (t.childNodes p).map (·.2) := by
  simp only [kids, childNodes, List.map_filterMap]
  refine List.filterMap_congr fun e _ => ?_
  unfold Edge.kid?
  cases e.child <;> rfl

/-- A child is one over some way out. -/
theorem mem_kids : n ∈ t.kids p ↔ ∃ route, (route, n) ∈ t.childNodes p := by
  simp [kids_eq]

/-- A search over the rows of nodes goes from a node to its children. -/
theorem adjacent_iff : Search.Adjacent t.childNodes p n ↔ n ∈ t.kids p :=
  mem_kids.symm

/-- A child of a node is below whatever the node is below. -/
theorem Below.step (h : t.Below m p) (hk : n ∈ t.kids p) : t.Below m n :=
  h.tail (adjacent_iff.2 hk)

/-- What a walk follows are the edges to nodes. -/
theorem mem_childNodes {route : Option Route} :
    (route, n) ∈ t.childNodes p ↔ ⟨route, .node n⟩ ∈ t.edges p := by
  simp only [childNodes, List.mem_filterMap]
  constructor
  · rintro ⟨⟨r, child⟩, he, h⟩
    cases child with
    | node id =>
        obtain ⟨rfl, rfl⟩ := Prod.mk.inj (Option.some.inj h)
        exact he
    | terminal endpoint => contradiction
  · exact fun h => ⟨_, h, rfl⟩

/-- What hangs off a node are its edges to endpoints. -/
theorem mem_endings {route : Option Route} {endpoint : Endpoint} :
    (route, endpoint) ∈ t.endings p ↔ ⟨route, .terminal endpoint⟩ ∈ t.edges p := by
  simp only [endings, List.mem_filterMap]
  constructor
  · rintro ⟨⟨r, child⟩, he, h⟩
    cases child with
    | node id => contradiction
    | terminal endpoint =>
        obtain ⟨rfl, rfl⟩ := Prod.mk.inj (Option.some.inj h)
        exact he
  · exact fun h => ⟨_, h, rfl⟩

/-- A node forwards nowhere when it has neither kids nor endings. -/
theorem isLeaf_iff : t.isLeaf n = true ↔ t.kids n = [] ∧ t.endings n = [] := by
  simp only [isLeaf, List.isEmpty_iff, kids, endings, List.filterMap_eq_nil_iff]
  constructor
  · intro h
    simp [h]
  · rintro ⟨hk, he⟩
    -- An edge is of one kind or the other, so it would be seen in one of the lists.
    refine List.eq_nil_iff_forall_not_mem.2 fun e hmem => ?_
    have hk := hk e hmem
    have he := he e hmem
    unfold Edge.kid? at hk
    unfold Edge.ending? at he
    split at hk <;> simp_all

/-- A node with an edge to another is no leaf. -/
theorem isLeaf_of_mem_kids (hk : n ∈ t.kids p) : t.isLeaf p = false := by
  rw [← Bool.not_eq_true, isLeaf_iff]
  rintro ⟨hkids, -⟩
  simp [hkids] at hk

/-- The terminals of a node with a chip are its endings, each with that chip. -/
theorem terminalsAt_eq (hc : t.chip? n = some c) :
    t.terminalsAt n = (t.endings n).map fun x => ⟨c, x.1, x.2⟩ := by
  simp only [terminalsAt, hc, endings, List.map_filterMap]
  refine List.filterMap_congr fun e _ => ?_
  unfold Edge.ending?
  cases e.child <;> rfl

/-- A terminal of a node is on its chip and among its endings. -/
theorem mem_terminalsAt {x : Terminal} :
    x ∈ t.terminalsAt n ↔ t.chip? n = some x.chip ∧ (x.route, x.endpoint) ∈ t.endings n := by
  cases hc : t.chip? n with
  | none => simp [terminalsAt, hc]
  | some c =>
      obtain ⟨chip, route, endpoint⟩ := x
      rw [terminalsAt_eq hc, List.mem_map]
      constructor
      · rintro ⟨y, hy, heq⟩
        cases heq
        exact ⟨rfl, hy⟩
      · rintro ⟨hchip, hy⟩
        exact ⟨_, hy, by rw [Option.some.inj hchip]⟩

/-- The nodes with a chip are those of the row. -/
theorem exists_chip?_iff : (∃ c, t.chip? n = some c) ↔ n < t.size := by
  simp [chip?, size, ← Option.isSome_iff_exists]

/-- A node with a chip is in the row. -/
theorem lt_size_of_chip? (h : t.chip? n = some c) : n < t.size :=
  exists_chip?_iff.1 ⟨c, h⟩

/-- Places behind the row have no edges. -/
theorem edges_eq_nil (h : t.size ≤ n) : t.edges n = [] := by
  have : t.nodes[n]? = none := Array.getElem?_eq_none h
  simp [edges, this]

/-- A node with a child is in the row; the child need not be. -/
theorem lt_size_of_mem_kids (h : n ∈ t.kids p) : p < t.size := by
  obtain ⟨route, h⟩ := mem_kids.1 h
  -- Behind the row there are no edges that could lead anywhere.
  by_contra hlt
  rw [mem_childNodes, edges_eq_nil (Nat.le_of_not_lt hlt)] at h
  exact List.not_mem_nil h

/-! ### A new node -/

/-- A new node has no edges, and those of the others stay. -/
theorem edges_addNode (t : RouteTree) (c : Chip) (n : NodeId) :
    (t.addNode c).edges n = t.edges n := by
  simp only [edges, addNode, Array.getElem?_push]
  -- The new place has no edges, as it had none while it lay behind the row.
  by_cases h : n = t.nodes.size
  · subst h
    simp
  · rw [if_neg h]

/-- The new node is on its chip, and the others stay where they are. -/
@[simp] theorem chip?_addNode (t : RouteTree) (c : Chip) (n : NodeId) :
    (t.addNode c).chip? n = if n = t.size then some c else t.chip? n := by
  simp only [chip?, addNode, Array.getElem?_push, size]
  by_cases h : n = t.nodes.size <;> simp [h]

/-- A new node leads nowhere, and the others lead where they did. -/
@[simp] theorem childNodes_addNode (t : RouteTree) (c : Chip) (n : NodeId) :
    (t.addNode c).childNodes n = t.childNodes n := by
  rw [childNodes, edges_addNode, childNodes]

/-- A new node has no children, and is none yet. -/
@[simp] theorem kids_addNode (t : RouteTree) (c : Chip) (n : NodeId) :
    (t.addNode c).kids n = t.kids n := by
  rw [kids, edges_addNode, kids]

/-- No endpoint hangs off a new node. -/
@[simp] theorem endings_addNode (t : RouteTree) (c : Chip) (n : NodeId) :
    (t.addNode c).endings n = t.endings n := by
  rw [endings, edges_addNode, endings]

/-! ### A new edge -/

/-- An edge is added behind the other edges of its node. -/
theorem edges_addEdge (hp : p < t.size) (e : Edge) (n : NodeId) :
    (t.addEdge p e).edges n = if n = p then t.edges n ++ [e] else t.edges n := by
  have hget : t.nodes[p]? = some t.nodes[p] := Array.getElem?_eq_getElem hp
  simp only [edges, addEdge, Array.getElem?_modify]
  by_cases h : n = p
  · subst h
    simp [hget]
  · simp [h, Ne.symm h]

/-- An edge moves no node. -/
@[simp] theorem chip?_addEdge (t : RouteTree) (p : NodeId) (e : Edge) (n : NodeId) :
    (t.addEdge p e).chip? n = t.chip? n := by
  simp only [chip?, addEdge, Array.getElem?_modify]
  split
  · rw [Option.map_map]
    rfl
  · rfl

/-- An edge to a node is put behind the other edges to nodes. -/
theorem childNodes_addEdge_node (hp : p < t.size) (route : Option Route) (m n : NodeId) :
    (t.addEdge p ⟨route, .node m⟩).childNodes n =
      if n = p then t.childNodes n ++ [(route, m)] else t.childNodes n := by
  rw [childNodes, edges_addEdge hp]
  split
  · rw [List.filterMap_append]
    rfl
  · rfl

/-- An edge to a node adds a child, the last. -/
theorem kids_addEdge_node (hp : p < t.size) (route : Option Route) (m n : NodeId) :
    (t.addEdge p ⟨route, .node m⟩).kids n = if n = p then t.kids n ++ [m] else t.kids n := by
  rw [kids, edges_addEdge hp]
  split
  · rw [List.filterMap_append]
    rfl
  · rfl

/-- An edge to a node hangs up no endpoint. -/
theorem endings_addEdge_node (hp : p < t.size) (route : Option Route) (m n : NodeId) :
    (t.addEdge p ⟨route, .node m⟩).endings n = t.endings n := by
  rw [endings, edges_addEdge hp]
  split
  · rw [List.filterMap_append]
    exact List.append_nil _
  · rfl

/-- An edge to an endpoint adds nothing for a walk to follow. -/
theorem childNodes_addEdge_terminal (hp : p < t.size) (route : Option Route) (x : Endpoint)
    (n : NodeId) : (t.addEdge p ⟨route, .terminal x⟩).childNodes n = t.childNodes n := by
  rw [childNodes, edges_addEdge hp]
  split
  · rw [List.filterMap_append]
    exact List.append_nil _
  · rfl

/-- An edge to an endpoint adds no child. -/
theorem kids_addEdge_terminal (hp : p < t.size) (route : Option Route) (x : Endpoint)
    (n : NodeId) : (t.addEdge p ⟨route, .terminal x⟩).kids n = t.kids n := by
  rw [kids_eq, childNodes_addEdge_terminal hp, kids_eq]

/-- An endpoint is hung behind the others of its node. -/
theorem endings_addEdge_terminal (hp : p < t.size) (route : Option Route) (x : Endpoint)
    (n : NodeId) : (t.addEdge p ⟨route, .terminal x⟩).endings n =
      if n = p then t.endings n ++ [(route, x)] else t.endings n := by
  rw [endings, edges_addEdge hp]
  split
  · rw [List.filterMap_append]
    rfl
  · rfl

/-- To add a child is to add a node, then the edge to it. -/
theorem addChild_eq (t : RouteTree) (p : NodeId) (route : Option Route) (c : Chip) :
    t.addChild p route c = (t.addNode c).addEdge p ⟨route, .node t.size⟩ := by
  rw [addChild, newest_addNode]

/-- The child is on its chip, and the others stay where they are. -/
@[simp] theorem chip?_addChild (t : RouteTree) (p : NodeId) (route : Option Route) (c : Chip)
    (n : NodeId) : (t.addChild p route c).chip? n = if n = t.size then some c else t.chip? n := by
  rw [addChild_eq, chip?_addEdge, chip?_addNode]

/-- The edge to the new node is put behind the other edges of its parent. -/
theorem childNodes_addChild (hp : p < t.size) (route : Option Route) (c : Chip) (n : NodeId) :
    (t.addChild p route c).childNodes n =
      if n = p then t.childNodes n ++ [(route, t.size)] else t.childNodes n := by
  have hlt : p < (t.addNode c).size := by
    rw [size_addNode]
    exact Nat.lt_succ_of_lt hp
  rw [addChild_eq, childNodes_addEdge_node hlt, childNodes_addNode]

/-! ### Edges that obey a rule -/

/-- Every edge between nodes follows a link, and its two chips and the link obey a rule. -/
def EdgesObey (rule : Chip → Direction → Chip → Prop) (t : RouteTree) : Prop :=
  ∀ {p route n}, (route, n) ∈ t.childNodes p → ∃ a d b,
    t.chip? p = some a ∧ route = some (.link d) ∧ t.chip? n = some b ∧ rule a d b

/-- A root alone has no edge that could break a rule. -/
theorem edgesObey_single (rule : Chip → Direction → Chip → Prop) (c : Chip) :
    EdgesObey rule (single c) := by
  intro p route n hn
  cases p <;> simp [childNodes, edges, single] at hn

/-- A node added below another over a link, as the rule allows. -/
theorem EdgesObey.addChild {rule : Chip → Direction → Chip → Prop} {a : Chip} {d : Direction}
    (h : EdgesObey rule t) (hp : t.chip? p = some a) (hrule : rule a d c) :
    EdgesObey rule (t.addChild p (some (.link d)) c) := by
  have hchip {n : NodeId} {b : Chip} (hn : t.chip? n = some b) :
      (t.addChild p (some (.link d)) c).chip? n = some b := by
    rw [chip?_addChild, if_neg (Nat.ne_of_lt (lt_size_of_chip? hn))]
    exact hn
  intro q route n hn
  have hcases : (route, n) ∈ t.childNodes q ∨
      q = p ∧ route = some (.link d) ∧ n = t.size := by
    rw [childNodes_addChild (lt_size_of_chip? hp)] at hn
    split at hn
    · next hq => simpa [hq] using hn
    · exact .inl hn
  rcases hcases with hold | ⟨rfl, rfl, rfl⟩
  · obtain ⟨b, e, b', hb, hr, hb', hobeys⟩ := h hold
    exact ⟨b, e, b', hchip hb, hr, hchip hb', hobeys⟩
  · exact ⟨a, d, c, hchip hp, rfl, by simp, hrule⟩

/-! ### An edge less -/

/-- The first edge to the child is taken out, and the others keep their order. -/
theorem edges_removeEdge (t : RouteTree) (p : NodeId) (child : Child) (n : NodeId) :
    (t.removeEdge p child).edges n =
      if n = p then (t.edges n).eraseP (fun e => e.child == child) else t.edges n := by
  simp only [edges, removeEdge, Array.getElem?_modify]
  by_cases h : n = p
  · subst h
    cases t.nodes[n]? with
    | none => simp
    | some node =>
        obtain ⟨chip, ⟨l⟩⟩ := node
        simp [List.eraseP_toArray]
  · simp [h, Ne.symm h]

/-- To take an edge out moves no node. -/
@[simp] theorem chip?_removeEdge (t : RouteTree) (p : NodeId) (child : Child) (n : NodeId) :
    (t.removeEdge p child).chip? n = t.chip? n := by
  simp only [chip?, removeEdge, Array.getElem?_modify]
  split
  · rw [Option.map_map]
    rfl
  · rfl

/-- To take an edge out takes no node out of the row. -/
@[simp] theorem size_removeEdge (t : RouteTree) (p : NodeId) (child : Child) :
    (t.removeEdge p child).size = t.size := by
  simp [removeEdge, size]

/-- To take out the first edge to a node takes out the first step to it, edges to endpoints being
passed over. -/
theorem filterMap_childNode_eraseP (l : List Edge) (m : NodeId) :
    ((l.eraseP fun e => e.child == .node m).filterMap fun e =>
        match e.child with
        | .node next => some (e.route, next)
        | .terminal _ => none) =
      (l.filterMap fun e =>
        match e.child with
        | .node next => some (e.route, next)
        | .terminal _ => none).eraseP fun x => x.2 == m := by
  -- Edges to endpoints are passed over on both sides; the first edge to the node is the one
  -- removed.
  induction l with
  | nil => rfl
  | cons e l ih =>
      obtain ⟨route, child⟩ := e
      cases child with
      | node id =>
          by_cases h : id = m
          · simp [h]
          · simp only [List.filterMap_cons, List.eraseP_cons, beq_iff_eq, Child.node.injEq, h,
              cond_eq_ite, if_false]
            rw [ih]
      | terminal x => simpa [List.eraseP_cons] using ih

/-- What a walk loses by an edge taken out is the first step to its node. -/
theorem childNodes_removeEdge (t : RouteTree) (p m n : NodeId) :
    (t.removeEdge p (.node m)).childNodes n =
      if n = p then (t.childNodes n).eraseP (fun x => x.2 == m) else t.childNodes n := by
  rw [childNodes, edges_removeEdge]
  split
  · exact filterMap_childNode_eraseP _ _
  · rfl

/-- An edge to a node taken out takes one child away. -/
theorem kids_removeEdge (t : RouteTree) (p m n : NodeId) :
    (t.removeEdge p (.node m)).kids n = if n = p then (t.kids n).erase m else t.kids n := by
  rw [kids_eq, kids_eq, childNodes_removeEdge]
  split
  · rw [List.erase_eq_eraseP', List.eraseP_map]
    rfl
  · rfl

/-- An edge to a node taken out takes no endpoint away. -/
@[simp] theorem endings_removeEdge (t : RouteTree) (p m n : NodeId) :
    (t.removeEdge p (.node m)).endings n = t.endings n := by
  rw [endings, edges_removeEdge]
  split
  · rw [endings]
    -- The edge removed leads to a node, and such edges are not among the endings.
    induction t.edges n with
    | nil => rfl
    | cons e l ih =>
        obtain ⟨route, child⟩ := e
        cases child with
        | node id =>
            have hnone : Edge.ending? ⟨route, .node id⟩ = none := rfl
            by_cases h : id = m <;> simp_all
        | terminal x =>
            have hsome : Edge.ending? ⟨route, .terminal x⟩ = some (route, x) := rfl
            simp_all
  · rfl

/-! ### The parent of a node -/

/-- The parent found has an edge to the node. -/
theorem parent?_eq_some (h : t.parent? n = some p) : n ∈ t.kids p := by
  obtain ⟨hlt, hany, -⟩ := Array.findIdx?_eq_some_iff_getElem.1 h
  obtain ⟨e, he, hchild⟩ := Array.any_eq_true'.1 hany
  refine mem_kids.2 ⟨e.route, mem_childNodes.2 ?_⟩
  have hget : t.nodes[p]? = some t.nodes[p] := Array.getElem?_eq_getElem hlt
  rw [edges, hget]
  have hchild : e.child = .node n := eq_of_beq hchild
  show _ ∈ t.nodes[p].edges.toList
  rw [← hchild]
  exact Array.mem_toList_iff.2 he

/-- No parent is found only where no edge leads to the node. -/
theorem parent?_eq_none (h : t.parent? n = none) (p : NodeId) : n ∉ t.kids p := by
  intro hk
  have hlt := lt_size_of_mem_kids hk
  obtain ⟨route, hk⟩ := mem_kids.1 hk
  have hget : t.nodes[p]? = some t.nodes[p] := Array.getElem?_eq_getElem hlt
  rw [mem_childNodes, edges, hget] at hk
  -- The search went over the whole row, the parent included.
  have hall := Array.findIdx?_eq_none_iff.1 h t.nodes[p] (Array.getElem_mem hlt)
  rw [Array.any_eq_false'] at hall
  exact hall _ (Array.mem_toList_iff.1 hk) (beq_self_eq_true _)

end RouteTree

end Multicast
