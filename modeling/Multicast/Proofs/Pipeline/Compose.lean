import Multicast.Proofs.Pipeline.Complete
import Multicast.Proofs.Table.Merge

/-!
# `Multicast.Proofs.Pipeline.Compose`: tables of many nets from the tables of each

A net is routed without a look at the others, so all a run adds is the merging: it puts the
rows of one routed net after another into the tables (`Run.result_recordAll`). The rows of one
net are for different slots, and so they are the entries of the tables that the net gets alone
(`Machine.entryAlone?`). What a run of many nets ends with is then a matter of these entries
(`routeNets_eq_ok`): it succeeds when no two nets clash, and it fails on a slot for which two do.
-/

set_option autoImplicit false

namespace Multicast

/-- What a routed net puts into the tables. -/
def RoutedNet.rows (n : RoutedNet) : List Row :=
  (n.tree.entries (some n.net.source)).map fun x => ⟨⟨x.chip, n.net.partition⟩, x.entry⟩

/-- The rows of a proper tree are for different slots. -/
theorem RoutedNet.nodup_rows {n : RoutedNet} (h : n.tree.IsProper) :
    (n.rows.map (·.slot)).Nodup := by
  have hmap : n.rows.map (·.slot) = ((n.tree.entries (some n.net.source)).map (·.chip)).map
      fun c => ⟨c, n.net.partition⟩ := by
    simp [rows, Function.comp_def]
  rw [hmap]
  exact (h.nodup_entries _).map fun c d heq => (Slot.mk.inj heq).1

namespace Run

variable {ν : Type} {f : Fabric} {o : Options ν} {r : Run} {nets : List Net}
  {routed : List RoutedNet}

/-- Recording a net is putting its rows into the tables, whatever the reports and the order of the
nets that a run keeps beside them. -/
theorem result_record (capacity : Chip → Nat) (r : Run) (n : RoutedNet) :
    (finish capacity (r.record n)).result = r.tables.addRows n.rows := by
  rw [RoutedNet.rows, Tables.addRows_map, record, Tables.addTree]
  generalize r.tables.addEntries n.net.partition (n.tree.entries (some n.net.source)) = added
  obtain ⟨tables, _ | error⟩ := added <;> rfl

/-- Recording nets is putting their rows into the tables. -/
theorem result_recordAll (capacity : Chip → Nat) (r : Run) (routed : List RoutedNet) :
    (finish capacity (r.recordAll routed)).result =
      r.tables.addRows (routed.flatMap RoutedNet.rows) := by
  induction routed generalizing r with
  | nil => rfl
  | cons n rest ih =>
      rw [List.flatMap_cons, Tables.addRows_append, ← result_record capacity, recordAll]
      cases r.record n with
      | error stopped => rfl
      | ok next => exact ih next

/-- Nets that all get their trees are recorded one after another. -/
theorem nearest_eq_recordAll (hgo : o.cancelled = false) (h : f.Routes o.radius nets routed) :
    nearest f o r nets = r.recordAll routed := by
  have hcheck : o.checkCancelled = .ok () := by simp [Options.checkCancelled, hgo]
  obtain ⟨rfl, hroutes⟩ := h
  induction routed generalizing r with
  | nil => rfl
  | cons n rest ih =>
      obtain ⟨hn, hrest⟩ := List.forall_mem_cons.1 hroutes
      rw [List.map_cons, nearest, recordAll, hcheck, hn]
      exact bind_congr fun next => ih hrest

end Run

namespace Machine

open Entry (Agree SameOuts gather)

variable {ν : Type} [Quantity ν] {m : Machine ν} {o : Options ν} {nets : List Net} {net : Net}
  {slot : Slot} {e : Entry} {tables : Tables} {routed : List RoutedNet}

/-- The entry that a net has for a slot in the tables it gets alone. -/
def entryAlone? (m : Machine ν) (o : Options ν) (slot : Slot) (net : Net) : Option Entry :=
  match (m.routeNets [net] o).result with
  | .ok own => own.get? slot
  | .error _ => none

/-- The entries that nets have for a slot, each in the tables it gets alone. -/
def entriesAlone (m : Machine ν) (o : Options ν) (nets : List Net) (slot : Slot) : List Entry :=
  nets.filterMap (m.entryAlone? o slot)

/-- Two nets of one partition give a chip different ways out. -/
def Clash (m : Machine ν) (o : Options ν) (slot : Slot) (a b : Net) : Prop :=
  a.partition = slot.partition ∧ b.partition = slot.partition ∧
    ∃ x y, m.entryAlone? o slot a = some x ∧ m.entryAlone? o slot b = some y ∧ ¬ x.SameOuts y

/-- A net has an entry for a slot alone when it is routed alone and its tables have one. -/
theorem entryAlone?_eq_some : m.entryAlone? o slot net = some e ↔
    ∃ own, (m.routeNets [net] o).result = .ok own ∧ own.get? slot = some e := by
  unfold entryAlone?
  cases (m.routeNets [net] o).result <;> simp

/-- The entries of nets alone, each by the net it comes from. -/
theorem mem_entriesAlone : e ∈ m.entriesAlone o nets slot ↔
    ∃ net ∈ nets, m.entryAlone? o slot net = some e :=
  List.mem_filterMap

section
variable (halgorithm : o.algorithm = .nearest) (hgo : o.cancelled = false)
include halgorithm hgo

/-- Nets that all get their trees put their rows into the tables. -/
theorem result_routeNets (h : m.toFabric.Routes o.radius nets routed) :
    (m.routeNets nets o).result = Tables.empty.addRows (routed.flatMap RoutedNet.rows) := by
  rw [routeNets, halgorithm]
  simp only [Run.nearest_eq_recordAll hgo h]
  exact Run.result_recordAll m.entries .start routed

/-- The rows of a routed net are the entries it has alone. -/
theorem entriesAt_rows {n : RoutedNet} (hn : m.toFabric.routeNet net o.radius = .ok n)
    (slot : Slot) : Tables.entriesAt slot n.rows = (m.entryAlone? o slot net).toList := by
  obtain ⟨g, r, -, hsound, rfl⟩ := Fabric.sound_of_routeNet hn
  obtain ⟨own, hown, hentries⟩ := Tables.addRows_of_nodup
    (RoutedNet.nodup_rows (n := ⟨net, r.tree, r.report⟩) hsound.proper)
  have hroutes : m.toFabric.Routes o.radius [net] [⟨net, r.tree, r.report⟩] :=
    ⟨rfl, List.forall_mem_singleton.2 hn⟩
  have hresult := result_routeNets halgorithm hgo hroutes
  rw [List.flatMap_singleton, hown] at hresult
  rw [entryAlone?, hresult]
  exact hentries slot

/-- For one slot, the rows of a run hold the entries of its nets alone, in the order of the nets: no
net sees the trees of the others. -/
theorem entriesAt_flatMap_rows (h : m.toFabric.Routes o.radius nets routed) (slot : Slot) :
    Tables.entriesAt slot (routed.flatMap RoutedNet.rows) = m.entriesAlone o nets slot := by
  obtain ⟨rfl, hroutes⟩ := h
  induction routed with
  | nil => rfl
  | cons n rest ih =>
      obtain ⟨hn, hrest⟩ := List.forall_mem_cons.1 hroutes
      rw [List.flatMap_cons, Tables.entriesAt_append, ih hrest, entriesAt_rows halgorithm hgo hn,
        entriesAlone, entriesAlone, List.map_cons, List.filterMap_cons]
      cases m.entryAlone? o slot n.net <;> rfl

/-- The entries that a net has alone are for its partition. -/
theorem partition_of_entryAlone? (h : m.entryAlone? o slot net = some e) :
    net.partition = slot.partition := by
  obtain ⟨own, hown, -⟩ := entryAlone?_eq_some.1 h
  obtain ⟨n, hn⟩ := (routeNets_single_ok halgorithm hgo).1 ⟨own, hown⟩
  have hmem : e ∈ Tables.entriesAt slot n.rows := by
    rw [entriesAt_rows halgorithm hgo hn, h]
    exact List.mem_singleton_self e
  obtain ⟨_, _, -, -, rfl⟩ := Fabric.sound_of_routeNet hn
  obtain ⟨x, -, heq⟩ := List.mem_map.1 (Tables.mem_entriesAt.1 hmem)
  rw [← (Row.mk.inj heq).1]

/-- The entries that nets have for a slot agree if no two nets clash there. -/
theorem agree_entriesAlone : Agree (m.entriesAlone o nets slot) ↔
    ∀ a ∈ nets, ∀ b ∈ nets, ¬ m.Clash o slot a b := by
  constructor
  · rintro h a ha b hb ⟨-, -, x, y, hx, hy, hno⟩
    exact hno (h x (mem_entriesAlone.2 ⟨a, ha, hx⟩) y (mem_entriesAlone.2 ⟨b, hb, hy⟩))
  · intro h x hx y hy
    obtain ⟨a, ha, hx⟩ := mem_entriesAlone.1 hx
    obtain ⟨b, hb, hy⟩ := mem_entriesAlone.1 hy
    by_contra hno
    exact h a ha b hb ⟨partition_of_entryAlone? halgorithm hgo hx,
      partition_of_entryAlone? halgorithm hgo hy, x, y, hx, hy, hno⟩

/-- Nets that get tables alone all get their trees. -/
theorem exists_routed (h : ∀ net ∈ nets, ∃ own, (m.routeNets [net] o).result = .ok own) :
    ∃ routed, m.toFabric.Routes o.radius nets routed := by
  induction nets with
  | nil => exact ⟨[], rfl, by simp⟩
  | cons first rest ih =>
      obtain ⟨hfirst, hrest⟩ := List.forall_mem_cons.1 h
      obtain ⟨n, hn⟩ := (routeNets_single_ok halgorithm hgo).1 hfirst
      obtain ⟨routed, hnets, hroutes⟩ := ih hrest
      have hnet := Fabric.net_of_routeNet hn
      exact ⟨n :: routed, congr (congrArg List.cons hnet) hnets,
        List.forall_mem_cons.2 ⟨hnet ▸ hn, hroutes⟩⟩

/-- A run ends with tables if each net gets tables alone and their entries agree; the tables then
hold what these entries gather to. -/
theorem routeNets_eq_ok : (m.routeNets nets o).result = .ok tables ↔
    (∀ net ∈ nets, ∃ own, (m.routeNets [net] o).result = .ok own) ∧
      ∀ slot, Agree (m.entriesAlone o nets slot) ∧
        tables.get? slot = gather (m.entriesAlone o nets slot) := by
  have hokay (routed) (h : m.toFabric.Routes o.radius nets routed) :
      (m.routeNets nets o).result = .ok tables ↔ ∀ slot, Agree (m.entriesAlone o nets slot) ∧
        tables.get? slot = gather (m.entriesAlone o nets slot) := by
    rw [result_routeNets halgorithm hgo h, Tables.addRows_eq_ok]
    simp only [Tables.meant_empty, entriesAt_flatMap_rows halgorithm hgo h]
  constructor
  · intro h
    have hall : ∀ net ∈ nets, ∃ own, (m.routeNets [net] o).result = .ok own := by
      intro net hnet
      rw [routeNets, halgorithm] at h
      obtain ⟨r, hr, -⟩ := Run.finish_eq_ok.1 h
      obtain ⟨routed, ⟨rfl, hroutes⟩, -⟩ := Run.recorded_of_nearest hr
      obtain ⟨n, hn, rfl⟩ := List.mem_map.1 hnet
      exact (routeNets_single_ok halgorithm hgo).2 ⟨n, hroutes n hn⟩
    obtain ⟨routed, hrouted⟩ := exists_routed halgorithm hgo hall
    exact ⟨hall, (hokay routed hrouted).1 h⟩
  · rintro ⟨hall, h⟩
    obtain ⟨routed, hrouted⟩ := exists_routed halgorithm hgo hall
    exact (hokay routed hrouted).2 h

/-- A run of nets that all get tables alone ends with tables, or with an error that names a slot
for which their entries do not agree. -/
theorem routeNets_cases (h : ∀ net ∈ nets, ∃ own, (m.routeNets [net] o).result = .ok own) :
    ((∃ tables, (m.routeNets nets o).result = .ok tables) ∧
      ∀ slot, Agree (m.entriesAlone o nets slot)) ∨
    ∃ slot : Slot, (m.routeNets nets o).result = .error (.conflict slot.chip slot.partition) ∧
      ¬ Agree (m.entriesAlone o nets slot) := by
  obtain ⟨routed, hrouted⟩ := exists_routed halgorithm hgo h
  have hmeant (slot : Slot) : Tables.empty.meant (routed.flatMap RoutedNet.rows) slot =
      m.entriesAlone o nets slot := by
    rw [Tables.meant_empty, entriesAt_flatMap_rows halgorithm hgo hrouted]
  rw [result_routeNets halgorithm hgo hrouted]
  rcases Tables.addRows_spec .empty (routed.flatMap RoutedNet.rows) with
    ⟨tables, htables, hspec⟩ | ⟨slot, herror, hno⟩
  · exact .inl ⟨⟨tables, htables⟩, fun slot => hmeant slot ▸ (hspec slot).1⟩
  · exact .inr ⟨slot, herror, hmeant slot ▸ hno⟩

/-- Whether nets get tables together is seen at the tables that each gets alone. -/
theorem exists_tables : (∃ tables, (m.routeNets nets o).result = .ok tables) ↔
    (∀ net ∈ nets, ∃ own, (m.routeNets [net] o).result = .ok own) ∧
      ∀ slot, Agree (m.entriesAlone o nets slot) := by
  constructor
  · rintro ⟨tables, h⟩
    obtain ⟨hall, hspec⟩ := (routeNets_eq_ok halgorithm hgo).1 h
    exact ⟨hall, fun slot => (hspec slot).1⟩
  · rintro ⟨hall, hagree⟩
    rcases routeNets_cases halgorithm hgo hall with ⟨hok, -⟩ | ⟨slot, -, hno⟩
    · exact hok
    · exact absurd (hagree slot) hno

end

/-- Nets get tables together if each does alone and no two of them clash. The tables have an entry
for the slots for which some net has one alone, with the ways out that each of these nets gives.
If nets that all get tables alone do clash, the error names a slot for which two of them do. -/
theorem routeNets_compose (m : Machine ν) (o : Options ν) (nets : List Net)
    (halgorithm : o.algorithm = .nearest) (hgo : o.cancelled = false) :
    ((∃ tables, (m.routeNets nets o).result = .ok tables) ↔
      (∀ net ∈ nets, ∃ own, (m.routeNets [net] o).result = .ok own) ∧
        ∀ a ∈ nets, ∀ b ∈ nets, ∀ slot, ¬ m.Clash o slot a b) ∧
    (∀ tables, (m.routeNets nets o).result = .ok tables → ∀ slot,
      ((∃ e, tables.get? slot = some e) ↔ ∃ net ∈ nets, ∃ e, m.entryAlone? o slot net = some e) ∧
      ∀ e, tables.get? slot = some e →
        ∀ net ∈ nets, ∀ own, m.entryAlone? o slot net = some own → e.SameOuts own) ∧
    ((∀ net ∈ nets, ∃ own, (m.routeNets [net] o).result = .ok own) →
      (∃ a ∈ nets, ∃ b ∈ nets, ∃ slot, m.Clash o slot a b) →
      ∃ slot : Slot, (m.routeNets nets o).result = .error (.conflict slot.chip slot.partition) ∧
        ∃ a ∈ nets, ∃ b ∈ nets, m.Clash o slot a b) := by
  refine ⟨?_, ?_, ?_⟩
  · rw [exists_tables halgorithm hgo]
    simp only [agree_entriesAlone halgorithm hgo]
    exact and_congr_right fun _ => ⟨fun h a ha b hb slot => h slot a ha b hb,
      fun h slot a ha b hb => h a ha b hb slot⟩
  · intro tables h slot
    obtain ⟨hagree, hget⟩ := ((routeNets_eq_ok halgorithm hgo).1 h).2 slot
    refine ⟨?_, fun e he net hnet own hown => ?_⟩
    · rw [hget, ← Option.ne_none_iff_exists', ne_eq, Entry.gather_eq_none,
        List.eq_nil_iff_forall_not_mem]
      simp only [mem_entriesAlone, not_forall, not_not]
      exact ⟨fun ⟨e, net, hnet, he⟩ => ⟨net, hnet, e, he⟩, fun ⟨net, hnet, e, he⟩ =>
        ⟨e, net, hnet, he⟩⟩
    · exact Entry.sameOuts_of_gather hagree (hget.symm.trans he)
        (mem_entriesAlone.2 ⟨net, hnet, hown⟩)
  · rintro hall ⟨a, ha, b, hb, slot, hclash⟩
    rcases routeNets_cases halgorithm hgo hall with ⟨-, hagree⟩ | ⟨slot', herror, hnot⟩
    · exact absurd hclash ((agree_entriesAlone halgorithm hgo).1 (hagree slot) a ha b hb)
    · refine ⟨slot', herror, ?_⟩
      by_contra hno
      push Not at hno
      exact hnot ((agree_entriesAlone halgorithm hgo).2 hno)

/-- A row of three chips. -/
def row : Machine Float :=
  .standard (.intact { width := 3, height := 1, wraps := false })

/-- Three nets of one partition: the first two share their way, the third comes towards them. -/
def facingNets : List Net :=
  [{ partition := ⟨0⟩, source := .core ⟨0, 0⟩ 1, sinks := [.core ⟨2, 0⟩ 1] },
    { partition := ⟨0⟩, source := .core ⟨1, 0⟩ 2, sinks := [.core ⟨2, 0⟩ 1] },
    { partition := ⟨0⟩, source := .core ⟨2, 0⟩ 3, sinks := [.core ⟨0, 0⟩ 1] }]

/-- Each of the three nets succeeds alone. Together they end in the conflict between the two that
meet on the row. -/
theorem facing_clash :
    (∀ net ∈ facingNets, ∃ own, (row.routeNets [net] .standard).result = .ok own) ∧
    ∃ slot : Slot, (row.routeNets facingNets .standard).result =
        .error (.conflict slot.chip slot.partition) ∧
      ∃ a ∈ facingNets, ∃ b ∈ facingNets, row.Clash .standard slot a b := by
  have hall : ∀ net ∈ facingNets, ∃ own, (row.routeNets [net] .standard).result = .ok own := by
    have hok : ∀ net ∈ facingNets, (row.routeNets [net] .standard).result.isOk = true := by
      decide +kernel
    exact fun net hnet => exists_of_isOk (hok net hnet)
  refine ⟨hall, (routeNets_compose row .standard facingNets rfl rfl).2.2 hall ?_⟩
  -- On the chip in the middle the first net goes on to the east and the third to the west.
  refine ⟨_, List.mem_cons_self .., _, List.mem_cons_of_mem _ (List.mem_cons_of_mem _
    (List.mem_cons_self ..)), ⟨⟨1, 0⟩, ⟨0⟩⟩, rfl, rfl, ⟨[.east], [], some .west, none⟩,
    ⟨[.west], [], some .east, none⟩, ?_, ?_, ?_⟩
  · decide +kernel
  · decide +kernel
  · exact fun h => absurd h.1 (by decide)

end Machine

end Multicast
