import Multicast.Proofs.Machine.Paths
import Multicast.Proofs.Repair.Pieces
import Multicast.Proofs.Table.Entries
import Multicast.Table.Delivery

/-!
# `Multicast.Proofs.Table.Delivery`: where the packets of a tree go

`RouteTree.Spans` says what a routed tree is: it is over working links, and what hangs
off it are the sinks of its net. `Tables.Carries` says that tables hold the entries of
such a tree and no others that its packets could meet. Then packets pass the chips of
the tree that forward somewhere (`mem_visited`), go on from one to the next as the
edges do (`mem_onward`) and are delivered to the sinks (`mem_reached`); besides, a
link to a node that forwards nowhere looks as if a device hung on it. A tree without
such nodes delivers exactly (`reached_iff_of_noDeadEnd`), and each chip is sent to
once (`sent_once`).
-/

set_option autoImplicit false

namespace Multicast

/-- A proper tree over working links off which the sinks hang, each on its own chip. The edge to a
sink names its way out of the chip or leaves it open; no device hangs on a working link. -/
structure RouteTree.Spans (f : Fabric) (t : RouteTree) (source : Chip) (sinks : List Endpoint) :
    Prop where
  proper : t.IsProper
  root_chip : t.chip? t.root = some source
  lands : ∀ {p route n}, t.Below t.root p → (route, n) ∈ t.childNodes p → ∃ a link b,
    t.chip? p = some a ∧ route = some (.link link) ∧ t.chip? n = some b ∧ f.follow? a link = some b
  delivers : ∀ {e}, e ∈ sinks ↔ ∃ x ∈ t.terminals, x.endpoint = e
  home : ∀ x ∈ t.terminals,
    x.chip = x.endpoint.chip ∧ (x.route = none ∨ x.route = some x.endpoint.route)
  devices : ∀ {c d}, .device c d ∈ sinks → f.isLink c d = false
  root_not_leaf : t.isLeaf t.root = false

/-- Where an endpoint hangs anywhere below the root, the root is no leaf. -/
theorem RouteTree.root_not_leaf_of_endings {t : RouteTree} {n : NodeId} (hn : t.Below t.root n)
    (hne : t.endings n ≠ []) : t.isLeaf t.root = false := by
  -- It hangs off the root itself, or below one of its kids.
  rcases Relation.ReflTransGen.cases_head hn with rfl | ⟨k, hk, -⟩
  · rw [← Bool.not_eq_true, RouteTree.isLeaf_iff]
    exact fun h => hne h.2
  · exact RouteTree.isLeaf_of_mem_kids (RouteTree.adjacent_iff.1 hk)

namespace RouteTree.Spans

variable {f : Fabric} {t : RouteTree} {source c : Chip} {sinks : List Endpoint} {n k : NodeId}
  {d : Direction}

/-- A tree spans its sinks, if there are any, when every edge to one names the way out. Any sink
shows that the root is no leaf. -/
theorem of_named (hproper : t.IsProper) (hroot : t.chip? t.root = some source)
    (hworks : t.EdgesWork f) (hterminals : ∀ x, x ∈ t.terminals ↔
      x.endpoint ∈ sinks ∧ x.chip = x.endpoint.chip ∧ x.route = some x.endpoint.route)
    (hdevices : ∀ {c d}, .device c d ∈ sinks → f.isLink c d = false) (hne : sinks ≠ []) :
    t.Spans f source sinks where
  proper := hproper
  root_chip := hroot
  lands _ hk := hworks hk
  delivers {e} := by
    constructor
    · exact fun he => ⟨⟨e.chip, some e.route, e⟩, (hterminals _).2 ⟨he, rfl, rfl⟩, rfl⟩
    · rintro ⟨x, hx, rfl⟩
      exact ((hterminals x).1 hx).1
  home x hx := ((hterminals x).1 hx).2.imp_right .inr
  devices := hdevices
  root_not_leaf := by
    obtain ⟨e, he⟩ := List.exists_mem_of_ne_nil _ hne
    obtain ⟨n, hn, -, hmem⟩ := hproper.mem_terminals.1
      ((hterminals ⟨e.chip, some e.route, e⟩).2 ⟨he, rfl, rfl⟩)
    exact root_not_leaf_of_endings hn (List.ne_nil_of_mem hmem)

variable (h : t.Spans f source sinks)
include h

/-- An edge to a node names a working link. -/
theorem isLink_of_edge (hn : t.Below t.root n) (hc : t.chip? n = some c)
    (hk : (some (.link d), k) ∈ t.childNodes n) : f.isLink c d = true := by
  obtain ⟨b, link, next, hb, hr, -, hlink⟩ := h.lands hn hk
  obtain rfl := Option.some.inj (hc.symm.trans hb)
  obtain rfl := Route.link.inj (Option.some.inj hr)
  simp [Fabric.isLink, hlink]

/-- A sink hangs off the node on its chip. -/
theorem exists_ending {e : Endpoint} (he : e ∈ sinks) : ∃ n route,
    t.Below t.root n ∧ t.chip? n = some e.chip ∧ (route, e) ∈ t.endings n := by
  obtain ⟨x, hx, rfl⟩ := h.delivers.1 he
  obtain ⟨n, hn, hc, hmem⟩ := h.proper.mem_terminals.1 hx
  exact ⟨n, x.route, hn, hc.trans (congrArg some (h.home x hx).1), hmem⟩

/-- What hangs off a node is a sink on its chip, by the way out of the sink. -/
theorem of_mem_endings (hn : t.Below t.root n) (hc : t.chip? n = some c) {route : Option Route}
    {e : Endpoint} (hmem : (route, e) ∈ t.endings n) :
    e ∈ sinks ∧ e.chip = c ∧ wayOut ⟨route, .terminal e⟩ = some e.route := by
  have hx : (⟨c, route, e⟩ : Terminal) ∈ t.terminals := h.proper.mem_terminals.2 ⟨n, hn, hc, hmem⟩
  obtain ⟨hchip, hroute⟩ := h.home _ hx
  refine ⟨h.delivers.2 ⟨_, hx, rfl⟩, hchip.symm, wayOut_eq_some.2 ?_⟩
  exact hroute.symm.imp_right fun hopen => ⟨hopen, e, rfl, rfl⟩

/-- A node sends packets along its edges to nodes and to the sinks on its chip. A way out is that of
an edge to a node, which is named there, or that of a sink. -/
theorem sends_iff (hn : t.Below t.root n) (hc : t.chip? n = some c) {r : Route} :
    t.Sends n r ↔ (∃ k, (some r, k) ∈ t.childNodes n) ∨ ∃ x ∈ sinks, x.chip = c ∧ x.route = r := by
  constructor
  · rintro ⟨⟨route, child⟩, he, hway⟩
    cases child with
    | node k =>
        rcases wayOut_eq_some.1 hway with hr | ⟨-, x, hx, -⟩
        · obtain rfl : route = some r := hr
          exact .inl ⟨k, mem_childNodes.2 he⟩
        · contradiction
    | terminal x =>
        obtain ⟨hx, hxc, hown⟩ := h.of_mem_endings hn hc (RouteTree.mem_endings.2 he)
        exact .inr ⟨x, hx, hxc, Option.some.inj (hown.symm.trans hway)⟩
  · rintro (⟨k, hk⟩ | ⟨x, hx, rfl, rfl⟩)
    · exact ⟨_, mem_childNodes.1 hk, wayOut_eq_some.2 (.inl rfl)⟩
    · obtain ⟨m, route, hm, hmc, hmem⟩ := h.exists_ending hx
      obtain rfl := h.proper.eq_of_chip? hn hm (hc.trans hmc.symm)
      exact ⟨_, RouteTree.mem_endings.1 hmem, (h.of_mem_endings hn hc hmem).2.2⟩

/-- A node sends over a link along an edge, or to a device. -/
theorem sends_link (hn : t.Below t.root n) (hc : t.chip? n = some c) :
    t.Sends n (.link d) ↔
      (∃ k, (some (.link d), k) ∈ t.childNodes n) ∨ .device c d ∈ sinks := by
  rw [h.sends_iff hn hc]
  refine or_congr_right ⟨?_, fun hx => ⟨_, hx, rfl, rfl⟩⟩
  rintro ⟨x, hx, rfl, hr⟩
  cases x with
  | core => contradiction
  | device b e =>
      obtain rfl := Route.link.inj hr
      exact hx

/-- A node sends into the cores of its chip that are sinks. -/
theorem sends_core (hn : t.Below t.root n) (hc : t.chip? n = some c) {core : UInt8} :
    t.Sends n (.core core) ↔ .core c core ∈ sinks := by
  rw [h.sends_iff hn hc]
  constructor
  · rintro (⟨k, hk⟩ | ⟨x, hx, rfl, hr⟩)
    · obtain ⟨_, _, _, -, hr, -⟩ := h.lands hn hk
      simp at hr
    · cases x with
      | core b e =>
          obtain rfl := Route.core.inj hr
          exact hx
      | device => contradiction
  · exact fun hx => .inr ⟨_, hx, rfl, rfl⟩

/-- The nodes that send packets somewhere are those that are no leaves. Every edge to a node or a
sink has a way out. -/
theorem exists_sends (hn : t.Below t.root n) : (∃ r, t.Sends n r) ↔ t.isLeaf n = false := by
  obtain ⟨c, hc⟩ := RouteTree.exists_chip?_iff.2 (h.proper.lt_size hn)
  rw [← Bool.not_eq_true, RouteTree.isLeaf_iff]
  constructor
  · rintro ⟨r, e, he, -⟩ ⟨hkids, hends⟩
    obtain ⟨route, child⟩ := e
    cases child with
    | node k =>
        have hk : k ∈ t.kids n := RouteTree.mem_kids.2 ⟨route, mem_childNodes.2 he⟩
        simp [hkids] at hk
    | terminal x =>
        have hx := RouteTree.mem_endings.2 he
        simp [hends] at hx
  · intro hno
    by_cases hkids : t.kids n = []
    · obtain ⟨⟨route, x⟩, hx⟩ := List.exists_mem_of_ne_nil _ fun hends => hno ⟨hkids, hends⟩
      obtain ⟨hxs, hxc, -⟩ := h.of_mem_endings hn hc hx
      exact ⟨x.route, (h.sends_iff hn hc).2 (.inr ⟨x, hxs, hxc, rfl⟩)⟩
    · obtain ⟨k, hk⟩ := List.exists_mem_of_ne_nil _ hkids
      obtain ⟨route, hk⟩ := RouteTree.mem_kids.1 hk
      obtain ⟨_, link, _, -, rfl, -⟩ := h.lands hn hk
      exact ⟨.link link, (h.sends_iff hn hc).2 (.inl ⟨k, hk⟩)⟩

/-- A tree without dead ends has no leaves at all. -/
theorem not_leaf_of_noDeadEnd (hends : t.NoDeadEnd) (hn : t.Below t.root n) :
    t.isLeaf n = false := by
  by_cases h0 : n = t.root
  · exact h0 ▸ h.root_not_leaf
  · exact hends n hn h0

end RouteTree.Spans

/-! ### What the tables hold -/

/-- Tables hold the entries of a tree for a partition, and none for its leaves. -/
def Tables.Carries (tables : Tables) (p : Partition) (t : RouteTree) : Prop :=
  ∀ n c, t.Below t.root n → t.chip? n = some c →
    (t.isLeaf n = true → tables.get? ⟨c, p⟩ = none) ∧
      (t.isLeaf n = false → ∃ e, tables.get? ⟨c, p⟩ = some e ∧ t.Serves n e)

/-- For the chips of a tree the tables have an entry exactly where a node is no leaf. -/
theorem Tables.Carries.isSome_get? {tables : Tables} {p : Partition} {t : RouteTree} {n : NodeId}
    {c : Chip} (htables : tables.Carries p t) (hn : t.Below t.root n) (hc : t.chip? n = some c) :
    (tables.get? ⟨c, p⟩).isSome = true ↔ t.isLeaf n = false := by
  obtain ⟨hleaf, hsends⟩ := htables n c hn hc
  cases hl : t.isLeaf n with
  | true => simp [hleaf hl]
  | false =>
      obtain ⟨e, he, -⟩ := hsends hl
      simp [he]

/-- Adding the entries of a tree makes tables carry it, if its leaves met no entries before. A leaf
sends nothing, so it brings no entry of its own. -/
theorem RouteTree.Spans.carries {f : Fabric} {t : RouteTree} {source : Chip}
    {sinks : List Endpoint} (h : t.Spans f source sinks) {tables tables' : Tables} {p : Partition}
    {src : Option Endpoint} (hadd : tables.addTree p t src = (tables', none))
    (hclear : ∀ n c, t.Below t.root n → t.chip? n = some c → t.isLeaf n = true →
      tables.get? ⟨c, p⟩ = none) : tables'.Carries p t := by
  obtain ⟨-, hall, hother⟩ := Tables.addEntries_spec hadd
  intro n c hn hc
  constructor
  · intro hl
    rw [hother _ ?_, hclear n c hn hc hl]
    rintro x hx heq
    -- An entry on the chip would be that of the leaf, which sends nothing.
    obtain ⟨m, hm, hmc, -, hsends⟩ := mem_entries hx
    have hm := h.proper.mem_reached.1 hm
    obtain rfl := h.proper.eq_of_chip? hm hn (by rw [hmc, hc, (Slot.mk.inj heq).1])
    have := (h.exists_sends hn).1 hsends
    simp [hl] at this
  · intro hl
    obtain ⟨r, hr⟩ := (h.exists_sends hn).2 hl
    obtain ⟨x, hx, rfl, hserves⟩ := exists_entry src (h.proper.mem_reached.2 hn) hc hr
    obtain ⟨e, he, hsame⟩ := hall x hx
    exact ⟨e, he, hserves.congr hsame⟩

/-- Empty tables take the entries of a tree. -/
theorem RouteTree.IsProper.addTree_empty {t : RouteTree} (h : t.IsProper) (p : Partition)
    (src : Option Endpoint) : ∃ tables, Tables.empty.addTree p t src = (tables, none) :=
  Tables.addEntries_fresh (h.nodup_entries src) fun _ _ => Tables.get?_empty _

/-- A tree without leaves is still carried when other entries come in. -/
theorem Tables.Carries.keep {tables tables' : Tables} {p : Partition} {t : RouteTree}
    (h : tables.Carries p t) (hkeeps : tables.Keeps tables')
    (hleaf : ∀ n, t.Below t.root n → t.isLeaf n = false) : tables'.Carries p t := by
  intro n c hn hc
  refine ⟨fun hl => absurd hl (by simp [hleaf n hn]), fun hl => ?_⟩
  obtain ⟨e, he, hserves⟩ := (h n c hn hc).2 hl
  obtain ⟨e', he', hsame⟩ := hkeeps _ e he
  exact ⟨e', he', hserves.congr hsame⟩

namespace Tables

variable {f : Fabric} {tables : Tables} {p : Partition} {c next : Chip} {d : Direction}

/-- A packet goes on to a chip over a working link if the chip has an entry. -/
theorem onward?_eq_some : tables.onward? f p c d = some next ↔
    f.follow? c d = some next ∧ (tables.get? ⟨next, p⟩).isSome = true := by
  simp [onward?, Option.filter_eq_some_iff]

/-- A chip sends a packet on over the links of its entry that lead to another chip with an entry. -/
theorem mem_onward {e : Entry} (he : tables.get? ⟨c, p⟩ = some e) :
    (d, next) ∈ tables.onward f p c ↔ e.Has (.link d) ∧ tables.onward? f p c d = some next := by
  simp only [onward, he, List.mem_filterMap, Option.map_eq_some_iff, Prod.mk.injEq]
  constructor
  · rintro ⟨d', hd, next', hnext, rfl, rfl⟩
    exact ⟨hd, hnext⟩
  · exact fun ⟨hd, hnext⟩ => ⟨d, hd, next, hnext, rfl, rfl⟩

/-- A chip hands a packet to the cores of its entry, and to the devices on the links of it that lead
on to no chip. -/
theorem mem_deliveries {e : Entry} (he : tables.get? ⟨c, p⟩ = some e) {x : Endpoint} :
    x ∈ tables.deliveries f p c ↔ (∃ core, e.Has (.core core) ∧ x = .core c core) ∨
      ∃ d, e.Has (.link d) ∧ tables.onward? f p c d = none ∧ x = .device c d := by
  simp only [deliveries, he, List.mem_append, List.mem_map, List.mem_filter,
    Option.isNone_iff_eq_none, Entry.Has, and_assoc, @eq_comm _ x]

/-- A chip delivers to its own endpoints. -/
theorem chip_of_mem_deliveries {x : Endpoint} (hx : x ∈ tables.deliveries f p c) : x.chip = c := by
  cases he : tables.get? ⟨c, p⟩ with
  | none => simp [deliveries, he] at hx
  | some e => rcases (mem_deliveries he).1 hx with ⟨core, -, rfl⟩ | ⟨d, -, -, rfl⟩ <;> rfl

/-- A chip hands packets to no endpoint twice. -/
theorem nodup_deliveries {e : Entry} (he : tables.get? ⟨c, p⟩ = some e) (h : e.InOrder) :
    (tables.deliveries f p c).Nodup := by
  have hcores : Function.Injective (Endpoint.core c) := fun _ _ heq => (Endpoint.core.inj heq).2
  have hlinks : Function.Injective (Endpoint.device c) := fun _ _ heq => (Endpoint.device.inj heq).2
  simp only [deliveries, he]
  refine List.nodup_append.2 ⟨h.nodup.2.map hcores, (h.nodup.1.filter _).map hlinks, ?_⟩
  rintro x hx y hy rfl
  obtain ⟨_, -, rfl⟩ := List.mem_map.1 hx
  obtain ⟨_, -, heq⟩ := List.mem_map.1 hy
  contradiction

/-- Packets go on to chips with entries only. -/
theorem mem_of_reaches {source : Chip} (h : Search.Reaches (tables.onward f p) source c) :
    c ∈ source :: tables.rows.map (·.slot.chip) := by
  rcases Relation.ReflTransGen.cases_tail h with rfl | ⟨a, -, d, hd⟩
  · exact List.mem_cons_self ..
  · cases ha : tables.get? ⟨a, p⟩ with
    | none => simp [onward, ha] at hd
    | some e =>
        obtain ⟨x, hx⟩ := Option.isSome_iff_exists.1 (onward?_eq_some.1 ((mem_onward ha).1 hd).2).2
        have hrow : (⟨⟨c, p⟩, x⟩ : Row) ∈ tables.rows := mem_rows.2 hx
        exact List.mem_cons_of_mem _ (List.mem_map.2 ⟨_, hrow, rfl⟩)

/-- The tables have as many rows as they say. -/
theorem length_rows : tables.rows.length = tables.entryCount := by
  simp [rows, entryCount]

/-- The chips passed are those that packets can go on to. From left to right by induction on the way
of a packet, from right to left by induction on the way down the tree. -/
theorem mem_visited {source : Chip} :
    c ∈ tables.visited f p source ↔ Search.Reaches (tables.onward f p) source c :=
  Search.mem_breadthFirst _ (fun _ => mem_of_reaches) (by simp [length_rows]) c

/-- No chip is passed twice. -/
theorem nodup_visited (f : Fabric) (tables : Tables) (p : Partition) (source : Chip) :
    (tables.visited f p source).Nodup :=
  Search.nodup_breadthFirst _ (fun _ => mem_of_reaches) (by simp [length_rows])

end Tables

namespace RouteTree.Spans

variable {f : Fabric} {t : RouteTree} {source c next : Chip} {sinks : List Endpoint}
  {n k : NodeId} {d : Direction} {tables : Tables} {p : Partition}
  (h : t.Spans f source sinks) (htables : tables.Carries p t)
include h htables

/-- Packets go on over an edge to a node that is no leaf. -/
theorem onward?_iff (hn : t.Below t.root n) (hc : t.chip? n = some c)
    (hk : (some (.link d), k) ∈ t.childNodes n) :
    tables.onward? f p c d = some next ↔ t.chip? k = some next ∧ t.isLeaf k = false := by
  obtain ⟨b, link, b', hb, hr, hb', hlink⟩ := h.lands hn hk
  obtain rfl := Option.some.inj (hc.symm.trans hb)
  obtain rfl := Route.link.inj (Option.some.inj hr)
  have hbelow := hn.step (RouteTree.mem_kids.2 ⟨_, hk⟩)
  rw [Tables.onward?_eq_some, hlink, hb']
  refine and_congr_right fun heq => ?_
  rw [← Option.some.inj heq]
  exact htables.isSome_get? hbelow hb'

/-- From a chip of the tree packets go on as the edges of its node do, to nodes that are no
leaves. -/
theorem mem_onward (hn : t.Below t.root n) (hc : t.chip? n = some c) (hl : t.isLeaf n = false) :
    (d, next) ∈ tables.onward f p c ↔
      ∃ k, (some (.link d), k) ∈ t.childNodes n ∧ t.chip? k = some next ∧ t.isLeaf k = false := by
  -- The entry of the node has the ways out of the node, whatever was merged into it.
  obtain ⟨e, he, hserves⟩ := (htables n c hn hc).2 hl
  rw [Tables.mem_onward he, hserves.has, h.sends_link hn hc]
  constructor
  · rintro ⟨⟨k, hk⟩ | hdevice, hnext⟩
    · exact ⟨k, hk, (h.onward?_iff htables hn hc hk).1 hnext⟩
    · -- No device hangs on a working link.
      have hlink := (Tables.onward?_eq_some.1 hnext).1
      have := h.devices hdevice
      simp [Fabric.isLink, hlink] at this
  · rintro ⟨k, hk, hnext⟩
    exact ⟨.inl ⟨k, hk⟩, (h.onward?_iff htables hn hc hk).2 hnext⟩

/-- The chips passed are those of the nodes that are no leaves. -/
theorem mem_visited : c ∈ tables.visited f p source ↔
    ∃ n, t.Below t.root n ∧ t.chip? n = some c ∧ t.isLeaf n = false := by
  rw [Tables.mem_visited]
  constructor
  · intro hreach
    -- Along the way of the packet: each chip passed is that of a node below the one before.
    induction hreach with
    | refl => exact ⟨t.root, .refl, h.root_chip, h.root_not_leaf⟩
    | tail _ hstep ih =>
        obtain ⟨d, hd⟩ := hstep
        obtain ⟨n, hn, hc, hl⟩ := ih
        obtain ⟨k, hk, hkc, hkl⟩ := (h.mem_onward htables hn hc hl).1 hd
        exact ⟨k, hn.step (RouteTree.mem_kids.2 ⟨_, hk⟩), hkc, hkl⟩
  · rintro ⟨n, hn, hc, hl⟩
    -- Down the tree: a node on the way to one that is no leaf is none either.
    refine hn.induct (motive := fun n => ∀ {c}, t.chip? n = some c → t.isLeaf n = false →
      Search.Reaches (tables.onward f p) source c) ?_ ?_ hc hl
    · intro c hc _
      exact Option.some.inj (h.root_chip.symm.trans hc) ▸ .refl
    · intro q k hq hk ih c hc hl
      obtain ⟨route, hmem⟩ := RouteTree.mem_kids.1 hk
      obtain ⟨b, link, b', hb, rfl, hb', hlink⟩ := h.lands hq hmem
      have hql := RouteTree.isLeaf_of_mem_kids hk
      exact (ih hb hql).tail ⟨link, (h.mem_onward htables hq hb hql).2 ⟨k, hmem, hc, hl⟩⟩

/-- What a chip passed hands packets to is a sink, or a device that is not there where a link leads
to a leaf. -/
theorem of_mem_deliveries (hn : t.Below t.root n) (hc : t.chip? n = some c)
    (hl : t.isLeaf n = false) {x : Endpoint} (hx : x ∈ tables.deliveries f p c) :
    x ∈ sinks ∨ ∃ k d, (some (.link d), k) ∈ t.childNodes n ∧ t.isLeaf k = true ∧
      x = .device c d := by
  obtain ⟨e, he, hserves⟩ := (htables n c hn hc).2 hl
  rcases (Tables.mem_deliveries he).1 hx with ⟨core, hcore, rfl⟩ | ⟨d, hd, hnone, rfl⟩
  · exact .inl ((h.sends_core hn hc).1 (hserves.has.1 hcore))
  · rcases (h.sends_link hn hc).1 (hserves.has.1 hd) with ⟨k, hk⟩ | hdevice
    · -- A working link over which nothing goes on leads to a leaf.
      refine .inr ⟨k, d, hk, ?_, rfl⟩
      obtain ⟨_, _, next, -, -, hkc, -⟩ := h.lands hn hk
      by_contra hkl
      have := (h.onward?_iff htables hn hc hk).2 ⟨hkc, by simpa using hkl⟩
      simp [hnone] at this
    · exact .inl hdevice

/-- The node on the chip of a sink is no leaf, and its chip hands packets to the sink. -/
theorem exists_delivers {x : Endpoint} (hx : x ∈ sinks) : ∃ n, t.Below t.root n ∧
    t.chip? n = some x.chip ∧ t.isLeaf n = false ∧ x ∈ tables.deliveries f p x.chip := by
  obtain ⟨n, _, hn, hc, hmem⟩ := h.exists_ending hx
  have hl : t.isLeaf n = false := by
    rw [← Bool.not_eq_true, RouteTree.isLeaf_iff]
    rintro ⟨-, hends⟩
    simp [hends] at hmem
  obtain ⟨e, he, hserves⟩ := (htables n _ hn hc).2 hl
  refine ⟨n, hn, hc, hl, (Tables.mem_deliveries he).2 ?_⟩
  cases x with
  | core c core => exact .inl ⟨core, hserves.has.2 ((h.sends_core hn hc).2 hx), rfl⟩
  | device c d =>
      refine .inr ⟨d, hserves.has.2 ((h.sends_link hn hc).2 (.inr hx)), ?_, rfl⟩
      -- The device of a sink hangs on a link that is not there, so nothing goes on over it.
      have hdead := h.devices hx
      rw [Fabric.isLink, Option.isSome_eq_false_iff, Option.isNone_iff_eq_none] at hdead
      simp [Tables.onward?, hdead, Endpoint.chip]

/-- A link to a leaf looks as if a device hung on it: packets go out and nowhere on. -/
theorem device_mem_deliveries (hn : t.Below t.root n) (hc : t.chip? n = some c)
    (hk : (some (.link d), k) ∈ t.childNodes n) (hleaf : t.isLeaf k = true) :
    .device c d ∈ tables.deliveries f p c := by
  have hl := RouteTree.isLeaf_of_mem_kids (RouteTree.mem_kids.2 ⟨_, hk⟩)
  obtain ⟨e, he, hserves⟩ := (htables n _ hn hc).2 hl
  refine (Tables.mem_deliveries he).2
    (.inr ⟨d, hserves.has.2 ((h.sends_link hn hc).2 (.inl ⟨k, hk⟩)), ?_, rfl⟩)
  by_contra hsome
  obtain ⟨next, hnext⟩ := Option.ne_none_iff_exists'.1 hsome
  have := ((h.onward?_iff htables hn hc hk).1 hnext).2
  simp [hleaf] at this

/-- Packets reach the sinks, and devices that are not there where a link leads to a leaf. A chip
passed hands packets over as its node does (`of_mem_deliveries`), and what a node hands over is
handed over by a chip passed. -/
theorem mem_reached {x : Endpoint} (src : Endpoint) (hsrc : src.chip = source) :
    x ∈ tables.reached f p src ↔ x ∈ sinks ∨
      ∃ n k c d, t.Below t.root n ∧ t.chip? n = some c ∧ (some (.link d), k) ∈ t.childNodes n ∧
        t.isLeaf k = true ∧ x = .device c d := by
  rw [Tables.reached, hsrc, Std.ExtTreeSet.mem_toList, Std.ExtTreeSet.mem_ofList,
    List.contains_iff_mem, List.mem_flatMap]
  constructor
  · rintro ⟨c, hc, hx⟩
    obtain ⟨n, hn, hnc, hl⟩ := (h.mem_visited htables).1 hc
    refine (h.of_mem_deliveries htables hn hnc hl hx).imp_right ?_
    rintro ⟨k, d, hk, hkl, rfl⟩
    exact ⟨n, k, c, d, hn, hnc, hk, hkl, rfl⟩
  · rintro (hx | ⟨n, k, c, d, hn, hc, hk, hkl, rfl⟩)
    · obtain ⟨n, hn, hc, hl, hmem⟩ := h.exists_delivers htables hx
      exact ⟨x.chip, (h.mem_visited htables).2 ⟨n, hn, hc, hl⟩, hmem⟩
    · have hl := RouteTree.isLeaf_of_mem_kids (RouteTree.mem_kids.2 ⟨_, hk⟩)
      exact ⟨c, (h.mem_visited htables).2 ⟨n, hn, hc, hl⟩,
        h.device_mem_deliveries htables hn hc hk hkl⟩

/-- A tree without dead ends delivers to its sinks and nowhere else. -/
theorem reached_iff_of_noDeadEnd (hends : t.NoDeadEnd) {x : Endpoint} (src : Endpoint)
    (hsrc : src.chip = source) : x ∈ tables.reached f p src ↔ x ∈ sinks := by
  rw [h.mem_reached htables src hsrc, or_iff_left]
  rintro ⟨n, k, c, d, hn, -, hk, hleaf, -⟩
  have := h.not_leaf_of_noDeadEnd hends (hn.step (RouteTree.mem_kids.2 ⟨_, hk⟩))
  simp [hleaf] at this

/-- A tree delivers to its sinks and nowhere else only if it has no dead ends. A dead end makes a
device that is reached and is no sink, since its link works. -/
theorem reached_iff_noDeadEnd (src : Endpoint) (hsrc : src.chip = source) :
    (∀ x, x ∈ tables.reached f p src ↔ x ∈ sinks) ↔ t.NoDeadEnd := by
  refine ⟨fun hexact k hk h0 => ?_,
    fun hends x => h.reached_iff_of_noDeadEnd htables hends src hsrc⟩
  by_contra hleaf
  obtain heq | ⟨n, hn, hmem⟩ := hk.cases_tail
  · exact h0 heq.symm
  · obtain ⟨route, hmem⟩ := RouteTree.mem_kids.1 hmem
    obtain ⟨c, link, c', hc, rfl, -, hlink⟩ := h.lands hn hmem
    have hphantom : Endpoint.device c link ∈ tables.reached f p src :=
      (h.mem_reached htables src hsrc).2
        (.inr ⟨n, k, c, link, hn, hc, hmem, by simpa using hleaf, rfl⟩)
    -- The link works, so no device hangs on it.
    have hdead := h.devices ((hexact _).1 hphantom)
    simp [Fabric.isLink, hlink] at hdead

/-- Every chip passed but the source is sent to once, from one chip over one link. It is sent to
from the chip of the parent of its node, over the link that the edge between them names. -/
theorem sent_once (hc : c ∈ tables.visited f p source) (hne : c ≠ source) :
    ∃! x : Chip × Direction, x.1 ∈ tables.visited f p source ∧
      (x.2, c) ∈ tables.onward f p x.1 := by
  obtain ⟨n, hn, hnc, hl⟩ := (h.mem_visited htables).1 hc
  obtain heq | ⟨q, hq, hk⟩ := hn.cases_tail
  · rw [← heq, h.root_chip] at hnc
    exact absurd (Option.some.inj hnc).symm hne
  · obtain ⟨route, hmem⟩ := RouteTree.mem_kids.1 hk
    obtain ⟨b, link, -, hb, rfl, -, -⟩ := h.lands hq hmem
    have hql := RouteTree.isLeaf_of_mem_kids hk
    refine ⟨(b, link), ⟨(h.mem_visited htables).2 ⟨q, hq, hb, hql⟩,
      (h.mem_onward htables hq hb hql).2 ⟨n, hmem, hnc, hl⟩⟩, ?_⟩
    rintro ⟨b', link'⟩ ⟨hb', hsend⟩
    obtain ⟨q', hq', hq'b, hq'l⟩ := (h.mem_visited htables).1 hb'
    obtain ⟨n', hmem', hn'c, -⟩ := (h.mem_onward htables hq' hq'b hq'l).1 hsend
    have hk' := RouteTree.mem_kids.2 ⟨_, hmem'⟩
    -- Another chip that sends here has a node above the same node, which has one parent.
    obtain rfl := h.proper.eq_of_chip? (hq'.step hk') hn (hn'c.trans hnc.symm)
    obtain rfl := h.proper.parent_unique hq hq' hk hk'
    obtain rfl := Option.some.inj (hb.symm.trans hq'b)
    -- One edge leads to the node, so there is one link.
    have hnodup := h.proper.nodup_kids hq
    rw [RouteTree.kids_eq] at hnodup
    have heq := List.inj_on_of_nodup_map hnodup hmem hmem' rfl
    rw [Route.link.inj (Option.some.inj (Prod.mk.inj heq).1)]

/-- No endpoint is handed packets twice. -/
theorem nodup_deliveries :
    ((tables.visited f p source).flatMap (tables.deliveries f p)).Nodup := by
  refine List.nodup_flatMap.2 ⟨fun c hc => ?_, ?_⟩
  · obtain ⟨n, hn, hnc, hl⟩ := (h.mem_visited htables).1 hc
    obtain ⟨e, he, hserves⟩ := (htables n c hn hnc).2 hl
    exact Tables.nodup_deliveries he hserves.inOrder
  · refine (Tables.nodup_visited f tables p source).imp fun {b c} hne x hb hc => hne ?_
    rw [← Tables.chip_of_mem_deliveries hb, ← Tables.chip_of_mem_deliveries hc]

/-- No chip passed sends packets back to the source. -/
theorem not_sent_back {b : Chip} (hb : b ∈ tables.visited f p source) :
    (d, source) ∉ tables.onward f p b := by
  intro hsend
  obtain ⟨q, hq, hqb, hql⟩ := (h.mem_visited htables).1 hb
  obtain ⟨k, hmem, hkc, -⟩ := (h.mem_onward htables hq hqb hql).1 hsend
  have hk := RouteTree.mem_kids.2 ⟨_, hmem⟩
  obtain rfl := h.proper.eq_of_chip? (hq.step hk) .refl (hkc.trans h.root_chip.symm)
  exact h.proper.root_not_kid hq hk

end RouteTree.Spans

end Multicast
