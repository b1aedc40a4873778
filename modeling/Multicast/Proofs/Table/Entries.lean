import Mathlib.Data.List.SplitBy
import Multicast.Proofs.Tree.Proper
import Multicast.Table.Tables

/-!
# `Multicast.Proofs.Table.Entries`: the entries of a tree in the tables

A node sends packets out by the ways its edges name (`RouteTree.Sends`), and the
entry made for it has exactly these (`serves_outgoingEntry`). Adding entries to tables
keeps the ways out of every entry that was there (`Tables.Keeps`) and leaves one for
each entry added (`addEntries_spec`). Where there is none yet on their chips, nothing
can disagree (`addEntries_fresh`).
-/

set_option autoImplicit false

namespace Multicast

namespace Ordered

variable {α : Type} {before : α → α → Bool}

/-- Only an element equal to one in the list is left out. -/
theorem mem_insert (htotal : ∀ a b, before a b = false → before b a = false → a = b) {a b : α}
    {l : List α} : b ∈ insert before a l ↔ b = a ∨ b ∈ l := by
  induction l with
  | nil => simp [insert]
  | cons x l ih =>
      rw [insert]
      split
      · exact List.mem_cons
      · next hax =>
        split
        · rw [List.mem_cons, ih, List.mem_cons, or_left_comm]
        · next hxa =>
          -- Neither goes before the other, so they are equal and the list stays as it is.
          rw [htotal a x (by simpa using hax) (by simpa using hxa), List.mem_cons]
          exact ⟨.inr, fun h => h.elim .inl id⟩

/-- To put a list in order leaves out only what it has twice. -/
theorem mem_ofList (htotal : ∀ a b, before a b = false → before b a = false → a = b) {b : α}
    {l : List α} : b ∈ ofList before l ↔ b ∈ l := by
  -- The elements put in order so far are part of what the induction is about.
  have hfold : ∀ sorted, b ∈ l.foldl (fun sorted a => insert before a sorted) sorted ↔
      b ∈ sorted ∨ b ∈ l := by
    induction l with
    | nil => simp
    | cons a l ih =>
        intro sorted
        rw [List.foldl_cons, ih, mem_insert htotal, List.mem_cons, or_assoc, or_left_comm]
  rw [ofList, hfold]
  simp

/-- A list put in order stays so. -/
theorem pairwise_insert (htotal : ∀ a b, before a b = false → before b a = false → a = b)
    (htrans : ∀ a b c, before a b = true → before b c = true → before a c = true) (a : α)
    {l : List α} (h : l.Pairwise fun b c => before b c = true) :
    (insert before a l).Pairwise fun b c => before b c = true := by
  induction l with
  | nil => exact List.pairwise_singleton ..
  | cons x l ih =>
      obtain ⟨hx, hl⟩ := List.pairwise_cons.1 h
      rw [insert]
      split
      · next hax =>
        refine List.pairwise_cons.2 ⟨fun b hb => ?_, h⟩
        rcases List.mem_cons.1 hb with rfl | hb
        · exact hax
        · exact htrans a x b hax (hx b hb)
      · split
        · next hxa =>
          refine List.pairwise_cons.2 ⟨fun b hb => ?_, ih hl⟩
          rcases (mem_insert htotal).1 hb with rfl | hb
          · exact hxa
          · exact hx b hb
        · exact h

end Ordered

/-- Ways out are told apart by the order they are put in: links by their numbers, cores by theirs,
links before cores. -/
theorem Route.before_total (a b : Route) (hab : a.before b = false) (hba : b.before a = false) :
    a = b := by
  cases a <;> cases b <;> simp only [before, decide_eq_false_iff_not, Bool.true_eq_false] at hab hba
  · exact congrArg link (Direction.linkId_inj (by omega))
  · exact congrArg core (UInt8.toNat_inj.1 (by omega))

namespace Entry

/-- Links are told apart by their order. -/
theorem linkBefore_total (a b : Direction) (hab : linkBefore a b = false)
    (hba : linkBefore b a = false) : a = b := by
  simp only [linkBefore, decide_eq_false_iff_not] at hab hba
  exact Direction.linkId_inj (by omega)

/-- Cores are told apart by theirs. -/
theorem coreBefore_total (a b : UInt8) (hab : coreBefore a b = false)
    (hba : coreBefore b a = false) : a = b := by
  simp only [coreBefore, decide_eq_false_iff_not] at hab hba
  exact UInt8.toNat_inj.1 (by omega)

/-- Whether an entry has a way out. -/
def Has (e : Entry) : Route → Prop
  | .link d => d ∈ e.links
  | .core c => c ∈ e.cores

/-- A way out added is there, with those that were. -/
theorem has_addRoute {e : Entry} {r s : Route} : (e.addRoute r).Has s ↔ s = r ∨ e.Has s := by
  cases r <;> cases s <;>
    simp [addRoute, Has, Ordered.mem_insert linkBefore_total, Ordered.mem_insert coreBefore_total]

/-- The same for several ways out, in any order. -/
theorem has_foldl_addRoute {e : Entry} {routes : List Route} {s : Route} :
    (routes.foldl addRoute e).Has s ↔ s ∈ routes ∨ e.Has s := by
  induction routes generalizing e with
  | nil => simp
  | cons r routes ih =>
      rw [List.foldl_cons, ih, has_addRoute, List.mem_cons, or_assoc, or_left_comm]

/-- The links and the cores of an entry are in order. -/
def InOrder (e : Entry) : Prop :=
  e.links.Pairwise (linkBefore · ·) ∧ e.cores.Pairwise (coreBefore · ·)

/-- A way out is added in its place. -/
theorem InOrder.addRoute {e : Entry} (h : e.InOrder) (r : Route) : (e.addRoute r).InOrder := by
  cases r with
  | link d =>
      refine ⟨Ordered.pairwise_insert linkBefore_total (fun a b c hab hbc => ?_) d h.1, h.2⟩
      simp only [linkBefore, decide_eq_true_eq] at hab hbc ⊢
      omega
  | core c =>
      refine ⟨h.1, Ordered.pairwise_insert coreBefore_total (fun a b c hab hbc => ?_) c h.2⟩
      simp only [coreBefore, decide_eq_true_eq] at hab hbc ⊢
      omega

/-- An entry built up by adding ways out is in order. -/
theorem InOrder.foldl_addRoute {e : Entry} (h : e.InOrder) (routes : List Route) :
    (routes.foldl Entry.addRoute e).InOrder := by
  induction routes generalizing e with
  | nil => exact h
  | cons r routes ih => exact ih (h.addRoute r)

/-- No way out is named twice. -/
theorem InOrder.nodup {e : Entry} (h : e.InOrder) : e.links.Nodup ∧ e.cores.Nodup := by
  refine ⟨h.1.imp fun {a b} hab => ?_, h.2.imp fun {a b} hab => ?_⟩
  · rintro rfl
    simp [linkBefore] at hab
  · rintro rfl
    simp [coreBefore] at hab

/-- An empty entry has no way out. The way in does not count. -/
theorem isEmpty_iff {e : Entry} : e.isEmpty = true ↔ ∀ r, ¬ e.Has r := by
  simp only [isEmpty, Bool.and_eq_true, List.isEmpty_iff]
  constructor
  · rintro ⟨hl, hc⟩ r
    cases r <;> simp [Has, hl, hc]
  · intro h
    exact ⟨List.eq_nil_iff_forall_not_mem.2 fun d => h (.link d),
      List.eq_nil_iff_forall_not_mem.2 fun c => h (.core c)⟩

/-- Two entries have the same ways out. -/
def SameOuts (a b : Entry) : Prop :=
  a.links = b.links ∧ a.cores = b.cores

/-- Entries with the same links and cores have the same ways out. -/
theorem SameOuts.has {a b : Entry} (h : SameOuts a b) {r : Route} : a.Has r ↔ b.Has r := by
  cases r
  · exact iff_of_eq (congrArg _ h.1)
  · exact iff_of_eq (congrArg _ h.2)

/-- And they are in order together. -/
theorem SameOuts.inOrder {a b : Entry} (h : SameOuts a b) (hb : b.InOrder) : a.InOrder := by
  rw [InOrder, h.1, h.2]
  exact hb

/-- The way in that is noted in an entry does not touch the ways out. -/
theorem sameOuts_withArrival (e : Entry) (arrival : Option Route) (source : Option Endpoint) :
    SameOuts (e.withArrival arrival source) e := by
  unfold withArrival
  split <;> exact ⟨rfl, rfl⟩

/-- A merged entry has the ways out of both. -/
theorem sameOuts_of_merge? {a b e : Entry} (h : a.merge? b = some e) :
    SameOuts e a ∧ SameOuts e b := by
  unfold merge? at h
  split at h
  · next hagrees =>
    simp only [agrees, Bool.and_eq_true, beq_iff_eq] at hagrees
    obtain rfl := Option.some.inj h
    exact ⟨⟨rfl, rfl⟩, hagrees⟩
  · contradiction

end Entry

/-! ### The ways out of a node -/

namespace RouteTree

variable {t : RouteTree} {n : NodeId} {c : Chip} {r : Route}

/-- The way out an edge names: its own, or where that is open that of its endpoint. -/
def wayOut (e : Edge) : Option Route :=
  match e.route, e.child with
  | some r, _ => some r
  | none, .terminal endpoint => some endpoint.route
  | none, .node _ => none

/-- A node sends packets out by a way. -/
def Sends (t : RouteTree) (n : NodeId) (r : Route) : Prop :=
  ∃ e ∈ t.edges n, wayOut e = some r

/-- An edge names a way of its own, or that of its endpoint where it has none. An edge to a node
without a way of its own names none. -/
theorem wayOut_eq_some {e : Edge} : wayOut e = some r ↔ e.route = some r ∨
    e.route = none ∧ ∃ x, e.child = .terminal x ∧ x.route = r := by
  obtain ⟨route, child⟩ := e
  cases route <;> cases child <;> simp [wayOut]

/-- What the entry of a stop is made of. -/
theorem has_outgoingEntry {stop : Stop} (hout : stop.outgoing = t.outgoing n)
    (hn : stop.node = n) : (t.outgoingEntry stop).Has r ↔ t.Sends n r := by
  -- Edges with a route of their own give the ways listed as outgoing, those without one the implied
  -- ways.
  have hempty : ¬ Entry.empty.Has r := Entry.isEmpty_iff.1 rfl r
  rw [outgoingEntry, Entry.has_foldl_addRoute, or_iff_left hempty, hout, hn, List.mem_append,
    outgoing, Ordered.mem_ofList Route.before_total, impliedRoutes, List.mem_filterMap,
    List.mem_filterMap, Sends, ← exists_or]
  refine exists_congr fun e => ?_
  rw [← and_or_left, wayOut_eq_some]
  refine and_congr_right fun _ => or_congr_right ?_
  obtain ⟨route, child⟩ := e
  cases route <;> cases child <;> simp

/-- An entry sends packets where a node does. -/
structure Serves (t : RouteTree) (n : NodeId) (e : Entry) : Prop where
  has : ∀ {r}, e.Has r ↔ t.Sends n r
  inOrder : e.InOrder

/-- What a node sends is a matter of the ways out alone. -/
theorem Serves.congr {e e' : Entry} (h : t.Serves n e) (hsame : e'.SameOuts e) : t.Serves n e' :=
  ⟨hsame.has.trans h.has, hsame.inOrder h.inOrder⟩

/-- A stop tells its node, the chip of that, and the ways out of it. -/
theorem mem_stops {stop : Stop} (h : stop ∈ t.stops) : stop.node ∈ t.reached ∧
    t.chip? stop.node = some stop.chip ∧ stop.outgoing = t.outgoing stop.node := by
  obtain ⟨⟨arrival, m⟩, hm, h⟩ := List.mem_filterMap.1 h
  obtain ⟨c, hc, rfl⟩ := Option.map_eq_some_iff.1 h
  obtain ⟨a, ha, heq⟩ := List.mem_map.1 hm
  obtain ⟨-, rfl⟩ := Prod.mk.inj heq
  exact ⟨List.mem_map_of_mem ha, hc, rfl⟩

/-- Every node below the root with a chip has a stop. -/
theorem exists_stop (hn : n ∈ t.reached) (hc : t.chip? n = some c) :
    ∃ stop ∈ t.stops, stop.node = n ∧ stop.chip = c := by
  obtain ⟨a, ha, rfl⟩ := List.mem_map.1 hn
  refine ⟨⟨arrivalRoute a, a.node, c, t.outgoing a.node⟩, List.mem_filterMap.2 ?_, rfl, rfl⟩
  exact ⟨(arrivalRoute a, a.node), List.mem_map.2 ⟨a, ha, rfl⟩,
    Option.map_eq_some_iff.2 ⟨c, hc, rfl⟩⟩

/-- The entry of a stop, if it sends packets anywhere. -/
theorem mem_entries_iff {source : Option Endpoint} {x : ChipEntry} : x ∈ t.entries source ↔
    ∃ stop ∈ t.stops, (t.outgoingEntry stop).isEmpty = false ∧
      x = ⟨stop.chip, (t.outgoingEntry stop).withArrival stop.arrival source⟩ := by
  simp only [entries, List.mem_filterMap, Option.ite_none_left_eq_some, Option.some.injEq,
    Bool.not_eq_true, @eq_comm _ x]

/-- The entry of a stop sends packets where its node does, whatever way in is noted. -/
theorem serves_outgoingEntry {stop : Stop} (h : stop ∈ t.stops) (source : Option Endpoint) :
    t.Serves stop.node ((t.outgoingEntry stop).withArrival stop.arrival source) := by
  have hout : t.Serves stop.node (t.outgoingEntry stop) :=
    ⟨has_outgoingEntry (mem_stops h).2.2 rfl, Entry.InOrder.foldl_addRoute ⟨.nil, .nil⟩ _⟩
  exact hout.congr (Entry.sameOuts_withArrival _ _ _)

/-- The entry of a stop is left out only where the node sends nothing anywhere. -/
theorem isEmpty_outgoingEntry {stop : Stop} (h : stop ∈ t.stops) :
    (t.outgoingEntry stop).isEmpty = false ↔ ∃ r, t.Sends stop.node r := by
  rw [← Bool.not_eq_true, Entry.isEmpty_iff]
  simp only [has_outgoingEntry (mem_stops h).2.2 rfl, not_forall, not_not]

/-- The entries of a tree are those of the nodes that send packets anywhere. -/
theorem mem_entries {source : Option Endpoint} {x : ChipEntry} (h : x ∈ t.entries source) :
    ∃ n ∈ t.reached, t.chip? n = some x.chip ∧ t.Serves n x.entry ∧ ∃ r, t.Sends n r := by
  obtain ⟨stop, hstop, hne, rfl⟩ := mem_entries_iff.1 h
  obtain ⟨hn, hc, -⟩ := mem_stops hstop
  exact ⟨stop.node, hn, hc, serves_outgoingEntry hstop source, (isEmpty_outgoingEntry hstop).1 hne⟩

/-- A node that sends packets anywhere has its entry among those of the tree. -/
theorem exists_entry (source : Option Endpoint) (hn : n ∈ t.reached) (hc : t.chip? n = some c)
    (hr : t.Sends n r) : ∃ x ∈ t.entries source, x.chip = c ∧ t.Serves n x.entry := by
  obtain ⟨stop, hstop, rfl, rfl⟩ := exists_stop hn hc
  exact ⟨_, mem_entries_iff.2 ⟨stop, hstop, (isEmpty_outgoingEntry hstop).2 ⟨r, hr⟩, rfl⟩, rfl,
    serves_outgoingEntry hstop source⟩

/-- No chip of a proper tree has two entries. -/
theorem IsProper.nodup_entries (h : t.IsProper) (source : Option Endpoint) :
    ((t.entries source).map (·.chip)).Nodup := by
  -- Stops are for different nodes, hence on different chips, and so are the entries made of some of
  -- them.
  have hnodes : t.stops.Pairwise fun a b => a.node ≠ b.node := by
    have harrivals : t.breadthFirst.Pairwise fun a b => a.2 ≠ b.2 :=
      List.pairwise_map.2 (List.pairwise_map.1 h.nodup_reached)
    refine List.Pairwise.filterMap _ ?_ harrivals
    intro x y hxy a ha b hb
    obtain ⟨_, -, rfl⟩ := Option.map_eq_some_iff.1 ha
    obtain ⟨_, -, rfl⟩ := Option.map_eq_some_iff.1 hb
    exact hxy
  have hchips : t.stops.Pairwise fun a b => a.chip ≠ b.chip := by
    refine hnodes.imp_of_mem fun {a b} ha hb hne heq => hne ?_
    obtain ⟨han, hac, -⟩ := mem_stops ha
    obtain ⟨hbn, hbc, -⟩ := mem_stops hb
    exact h.eq_of_chip? (h.mem_reached.1 han) (h.mem_reached.1 hbn) (by rw [hac, hbc, heq])
  refine List.pairwise_map.2 (List.Pairwise.filterMap _ ?_ hchips)
  intro a b hab x hx y hy
  obtain ⟨-, hx⟩ := Option.ite_none_left_eq_some.1 hx
  obtain ⟨-, hy⟩ := Option.ite_none_left_eq_some.1 hy
  rwa [← Option.some.inj hx, ← Option.some.inj hy]

end RouteTree

/-! ### Rows and groups of rows -/

namespace Tables

variable {t : Tables}

/-- No slot has two rows. -/
theorem nodup_rows (t : Tables) : (t.rows.map (·.slot)).Nodup := by
  have hkeys : t.rows.map (·.slot) = t.entries.keys := by
    rw [← Std.ExtTreeMap.map_fst_toList_eq_keys, rows, List.map_map]
    rfl
  rw [hkeys]
  exact Std.ExtTreeMap.nodup_keys

/-- The rows of a group are rows of the tables, all of one chip. -/
theorem mem_groups {group : List Row} (h : group ∈ t.groups) :
    group.Sublist t.rows ∧ group.Pairwise fun a b => a.slot.chip = b.slot.chip := by
  constructor
  · have hsub := List.sublist_flatten_of_mem h
    rwa [groups, List.flatten_splitBy] at hsub
  · have htrans : IsTrans Row fun a b => a.slot.chip = b.slot.chip := ⟨fun _ _ _ => Eq.trans⟩
    exact List.isChain_iff_pairwise.1 ((List.isChain_of_mem_splitBy h).imp fun _ _ => eq_of_beq)

end Tables

/-! ### Entries added to tables -/

namespace Tables

variable {t t' t'' : Tables} {slot : Slot} {e : Entry} {p : Partition} {list : List ChipEntry}

/-- Every entry keeps its ways out. -/
def Keeps (t t' : Tables) : Prop :=
  ∀ slot e, t.get? slot = some e → ∃ e', t'.get? slot = some e' ∧ e'.SameOuts e

/-- Tables keep what they have. -/
theorem Keeps.refl (t : Tables) : t.Keeps t := fun _ e he => ⟨e, he, rfl, rfl⟩

/-- What is kept twice is kept. -/
theorem Keeps.trans (h : t.Keeps t') (h' : t'.Keeps t'') : t.Keeps t'' := by
  intro slot e he
  obtain ⟨e', he', hl, hc⟩ := h slot e he
  obtain ⟨e'', he'', hl', hc'⟩ := h' slot e' he'
  exact ⟨e'', he'', hl'.trans hl, hc'.trans hc⟩

/-- An entry added is there with its ways out, and no other slot has changed. -/
theorem insert_spec (h : t.insert slot e = .ok t') : t.Keeps t' ∧
    (∃ e', t'.get? slot = some e' ∧ e'.SameOuts e) ∧
    ∀ other, other ≠ slot → t'.get? other = t.get? other := by
  unfold insert at h
  cases hcombine : combine (t.get? slot) e with
  | none =>
      rw [hcombine] at h
      contradiction
  | some combined =>
      rw [hcombine] at h
      obtain rfl := Except.ok.inj h
      -- Whether there was an entry or not, the combined one has the ways out of either.
      have houts : combined.SameOuts e ∧
          ∀ known, t.get? slot = some known → combined.SameOuts known := by
        cases hknown : t.get? slot with
        | none =>
            rw [hknown] at hcombine
            obtain rfl := Option.some.inj hcombine
            exact ⟨⟨rfl, rfl⟩, by simp⟩
        | some known =>
            rw [hknown] at hcombine
            obtain ⟨hsame, hsame'⟩ := Entry.sameOuts_of_merge? hcombine
            exact ⟨hsame', fun _ h => Option.some.inj h ▸ hsame⟩
      refine ⟨fun other x hx => ?_, ⟨combined, by rw [get?_set, if_pos rfl], houts.1⟩,
        fun other hne => by rw [get?_set, if_neg hne]⟩
      rw [get?_set]
      split
      · next heq => exact ⟨combined, rfl, houts.2 x (heq ▸ hx)⟩
      · exact ⟨x, hx, rfl, rfl⟩

/-- All entries added are there with their ways out, and no other slot has changed. -/
theorem addEntries_spec (h : t.addEntries p list = (t', none)) : t.Keeps t' ∧
    (∀ x ∈ list, ∃ e, t'.get? ⟨x.chip, p⟩ = some e ∧ e.SameOuts x.entry) ∧
    ∀ slot, (∀ x ∈ list, slot ≠ ⟨x.chip, p⟩) → t'.get? slot = t.get? slot := by
  induction list generalizing t with
  | nil =>
      obtain ⟨rfl, -⟩ := Prod.mk.inj h
      exact ⟨.refl t, by simp, fun _ _ => rfl⟩
  | cons x rest ih =>
      rw [addEntries] at h
      cases hinsert : t.insert ⟨x.chip, p⟩ x.entry with
      | error error =>
          rw [hinsert] at h
          exact absurd (Prod.mk.inj h).2 (by simp)
      | ok next =>
          rw [hinsert] at h
          obtain ⟨hkeeps, ⟨e, he, hsame⟩, hother⟩ := insert_spec hinsert
          obtain ⟨hkeeps', hall, hother'⟩ := ih h
          refine ⟨hkeeps.trans hkeeps', fun y hy => ?_, fun slot hslot => ?_⟩
          · -- The first entry may be merged with later ones, which changes none of its ways out.
            rcases List.mem_cons.1 hy with rfl | hy
            · obtain ⟨e', he', hl, hc⟩ := hkeeps' _ _ he
              exact ⟨e', he', hl.trans hsame.1, hc.trans hsame.2⟩
            · exact hall y hy
          · rw [hother' slot fun y hy => hslot y (List.mem_cons_of_mem _ hy),
              hother slot (hslot x (List.mem_cons_self ..))]

/-- Entries for different chips without entries can be added. -/
theorem addEntries_fresh (hnodup : (list.map (·.chip)).Nodup)
    (hfresh : ∀ x ∈ list, t.get? ⟨x.chip, p⟩ = none) :
    ∃ t', t.addEntries p list = (t', none) := by
  induction list generalizing t with
  | nil => exact ⟨t, rfl⟩
  | cons x rest ih =>
      have hinsert : t.insert ⟨x.chip, p⟩ x.entry = .ok (t.set ⟨x.chip, p⟩ x.entry) := by
        rw [insert, hfresh x (List.mem_cons_self ..)]
        rfl
      rw [addEntries, hinsert]
      refine ih (List.nodup_cons.1 hnodup).2 fun y hy => ?_
      have hne : (⟨y.chip, p⟩ : Slot) ≠ ⟨x.chip, p⟩ := by
        rintro heq
        exact (List.nodup_cons.1 hnodup).1 (List.mem_map.2 ⟨y, hy, (Slot.mk.inj heq).1⟩)
      rw [get?_set, if_neg hne]
      exact hfresh y (List.mem_cons_of_mem _ hy)

end Tables

end Multicast
