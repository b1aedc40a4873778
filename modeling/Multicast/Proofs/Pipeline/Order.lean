import Multicast.Proofs.Pipeline.Compose
import Multicast.Proofs.Table.Incoming

/-!
# `Multicast.Proofs.Pipeline.Order`: nets in another order

Whether nets get tables does not depend on their order, nor do the ways out in these tables
(`keeps_of_perm`). The ways in do: what a slot knows of them is what the nets tell one after
another (`bind_get?`), and so no order makes a difference just if every slot is settled by what
the nets tell about it (`routeNets_perm`). With three nets it need not be (`order_matters`).
-/

set_option autoImplicit false

namespace Multicast

/-- Any order of what is picked from a list comes from an order of the list. -/
theorem exists_perm_filterMap {α β : Type} {pick : α → Option β} {l : List α} {picked : List β}
    (h : picked.Perm (l.filterMap pick)) :
    ∃ l' : List α, l'.Perm l ∧ l'.filterMap pick = picked := by
  induction picked generalizing l with
  | nil => exact ⟨l, .refl l, List.nil_perm.1 h⟩
  | cons b rest ih =>
      obtain ⟨a, ha, hpick⟩ := List.mem_filterMap.1 (h.subset (List.mem_cons_self ..))
      obtain ⟨before, after, rfl⟩ := List.append_of_mem ha
      -- What is picked first may be brought to the front.
      have hfront : (before ++ a :: after).Perm (a :: (before ++ after)) := List.perm_middle
      have hrest : rest.Perm ((before ++ after).filterMap pick) := by
        have := h.trans (hfront.filterMap pick)
        rw [List.filterMap_cons_some hpick] at this
        exact this.cons_inv
      obtain ⟨l', hl', rfl⟩ := ih hrest
      exact ⟨a :: l', (hl'.cons a).trans hfront.symm, List.filterMap_cons_some hpick⟩

namespace Machine

open Entry (gather mergeAll tally Settled)

variable {ν : Type} [Quantity ν] {m : Machine ν} {o : Options ν} {nets nets' : List Net}
  {slot : Slot} {tables tables' : Tables}

/-- What nets tell of a way in at a slot, each in the tables it gets alone. -/
def waysIn {α : Type} (m : Machine ν) (o : Options ν) (way : Entry → Option α) (nets : List Net)
    (slot : Slot) : List α :=
  nets.filterMap fun net => (m.entryAlone? o slot net).bind way

/-- Nets in another order have the same entries alone, in another order. -/
theorem entriesAlone_perm (h : nets'.Perm nets) (slot : Slot) :
    (m.entriesAlone o nets' slot).Perm (m.entriesAlone o nets slot) :=
  h.filterMap _

section
variable (halgorithm : o.algorithm = .nearest)
include halgorithm

/-- Nets get tables only while routing is not called off, unless there are none. -/
theorem eq_nil_or_not_cancelled (h : (m.routeNets nets o).result = .ok tables) :
    (nets = [] ∧ tables = .empty) ∨ o.cancelled = false := by
  rw [routeNets, halgorithm] at h
  obtain ⟨r, hr, rfl⟩ := Run.finish_eq_ok.1 h
  cases nets with
  | nil =>
      obtain rfl := Except.ok.inj hr
      exact .inl ⟨rfl, rfl⟩
  | cons net rest =>
      refine .inr (eq_false_of_ne_true fun hstop => ?_)
      simp [Run.nearest_cons_eq_ok, Options.checkCancelled, hstop] at hr

/-- Nets that get tables get some in every order. -/
theorem exists_tables_of_perm (hperm : nets'.Perm nets)
    (h : (m.routeNets nets o).result = .ok tables) :
    ∃ tables', (m.routeNets nets' o).result = .ok tables' := by
  rcases eq_nil_or_not_cancelled halgorithm h with ⟨rfl, -⟩ | hgo
  · exact ⟨tables, by rwa [List.perm_nil.1 hperm]⟩
  obtain ⟨hall, hagree⟩ := (exists_tables halgorithm hgo).1 ⟨tables, h⟩
  exact (exists_tables halgorithm hgo).2 ⟨fun net hnet => hall net (hperm.subset hnet),
    fun slot => (hagree slot).mono fun e he => (entriesAlone_perm hperm slot).subset he⟩

/-- The ways out do not depend on the order. -/
theorem keeps_of_perm (hperm : nets'.Perm nets) (h : (m.routeNets nets o).result = .ok tables)
    (h' : (m.routeNets nets' o).result = .ok tables') : tables.Keeps tables' := by
  rcases eq_nil_or_not_cancelled halgorithm h with ⟨rfl, rfl⟩ | hgo
  · intro slot e he
    simp at he
  intro slot e he
  obtain ⟨hagree, hget⟩ := ((routeNets_eq_ok halgorithm hgo).1 h).2 slot
  obtain ⟨hagree', hget'⟩ := ((routeNets_eq_ok halgorithm hgo).1 h').2 slot
  have hentries := entriesAlone_perm (m := m) (o := o) hperm slot
  rw [he] at hget
  -- Some net has an entry for the slot, and in either order its ways out are kept.
  obtain ⟨x, hx⟩ : ∃ x, x ∈ m.entriesAlone o nets slot :=
    List.exists_mem_of_ne_nil _ fun hnil => by simp [hnil] at hget
  obtain ⟨e', he'⟩ : ∃ e', gather (m.entriesAlone o nets' slot) = some e' := by
    refine Option.ne_none_iff_exists'.1 fun hnone => ?_
    rw [Entry.gather_eq_none.1 hnone] at hentries
    exact List.ne_nil_of_mem hx (List.nil_perm.1 hentries)
  exact ⟨e', hget'.trans he', (Entry.sameOuts_of_gather hagree' he' (hentries.symm.subset hx)).trans
    (Entry.sameOuts_of_gather hagree hget.symm hx).symm⟩

/-- What a slot knows of a way in is what the nets tell of it one after another. -/
theorem bind_get? {α : Type} [DecidableEq α] {way : Entry → Option α}
    (hway : ∀ l, (gather l).bind way = mergeAll (l.map way))
    (h : (m.routeNets nets o).result = .ok tables) (slot : Slot) :
    (tables.get? slot).bind way = tally none (m.waysIn o way nets slot) := by
  rcases eq_nil_or_not_cancelled halgorithm h with ⟨rfl, rfl⟩ | hgo
  · rw [Tables.get?_empty]
    rfl
  have hnamed : ((m.entriesAlone o nets slot).map way).reduceOption = m.waysIn o way nets slot := by
    rw [List.reduceOption, List.filterMap_map, entriesAlone, List.filterMap_filterMap]
    rfl
  rw [(((routeNets_eq_ok halgorithm hgo).1 h).2 slot).2, hway, Entry.mergeAll_eq_tally, hnamed]

/-- If the tables are the same in every order, the nets settle every way in. -/
theorem settled_of_forall_perm {α : Type} [DecidableEq α] {way : Entry → Option α}
    (hway : ∀ l, (gather l).bind way = mergeAll (l.map way))
    (h : ∀ nets', nets'.Perm nets → (m.routeNets nets' o).result = .ok tables) (slot : Slot) :
    Settled (m.waysIn o way nets slot) := by
  refine Entry.settled_iff.2 fun l' hl' => ?_
  obtain ⟨nets', hperm, rfl⟩ := exists_perm_filterMap hl'
  exact (bind_get? halgorithm hway (h nets' hperm) slot).symm.trans
    (bind_get? halgorithm hway (h nets (.refl nets)) slot)

/-- What a slot knows of a way in that the nets settle is the same in every order. -/
theorem bind_get?_of_settled {α : Type} [DecidableEq α] {way : Entry → Option α}
    (hway : ∀ l, (gather l).bind way = mergeAll (l.map way)) (hperm : nets'.Perm nets)
    (h : (m.routeNets nets o).result = .ok tables)
    (h' : (m.routeNets nets' o).result = .ok tables')
    (hsettled : Settled (m.waysIn o way nets slot)) :
    (tables'.get? slot).bind way = (tables.get? slot).bind way := by
  rw [bind_get? halgorithm hway h, bind_get? halgorithm hway h']
  exact hsettled.tally_eq (hperm.filterMap _)

end

/-- Nets get tables in one order if they do in another, and the tables have the same slots with
the same ways out. They are the same in every order just if the nets settle the ways in at each
slot. -/
theorem routeNets_perm (m : Machine ν) (o : Options ν) (nets : List Net)
    (halgorithm : o.algorithm = .nearest) :
    (∀ nets', nets'.Perm nets → ((∃ tables', (m.routeNets nets' o).result = .ok tables') ↔
      ∃ tables, (m.routeNets nets o).result = .ok tables)) ∧
    ∀ tables, (m.routeNets nets o).result = .ok tables →
      (∀ nets' tables', nets'.Perm nets → (m.routeNets nets' o).result = .ok tables' →
        tables.Keeps tables' ∧ tables'.Keeps tables) ∧
      ((∀ nets', nets'.Perm nets → (m.routeNets nets' o).result = .ok tables) ↔
        ∀ slot, Settled (m.waysIn o (·.incomingLink) nets slot) ∧
          Settled (m.waysIn o (·.incomingCore) nets slot)) := by
  refine ⟨fun nets' hperm => ⟨?_, ?_⟩, fun tables h => ⟨?_, ?_, ?_⟩⟩
  · exact fun ⟨_, h⟩ => exists_tables_of_perm halgorithm hperm.symm h
  · exact fun ⟨_, h⟩ => exists_tables_of_perm halgorithm hperm h
  · exact fun nets' tables' hperm h' => ⟨keeps_of_perm halgorithm hperm h h',
      keeps_of_perm halgorithm hperm.symm h' h⟩
  · exact fun h slot =>
      ⟨settled_of_forall_perm halgorithm Entry.gather_bind_incomingLink h slot,
        settled_of_forall_perm halgorithm Entry.gather_bind_incomingCore h slot⟩
  · intro hsettled nets' hperm
    obtain ⟨tables', h'⟩ := exists_tables_of_perm halgorithm hperm h
    rw [h', Tables.eq_of_keeps (keeps_of_perm halgorithm hperm.symm h' h)
      (keeps_of_perm halgorithm hperm h h')]
    · exact fun slot => bind_get?_of_settled halgorithm Entry.gather_bind_incomingLink
        hperm h h' (hsettled slot).1
    · exact fun slot => bind_get?_of_settled halgorithm Entry.gather_bind_incomingCore
        hperm h h' (hsettled slot).2

/-- A row of four chips. -/
def longRow : Machine Float :=
  .standard (.intact { width := 4, height := 1, wraps := false })

/-- A net of the first partition from a chip of the row to the third. -/
def towardsThird (source : Chip) : Net :=
  { partition := ⟨0⟩, source := .core source 1, sinks := [.core ⟨2, 0⟩ 1] }

/-- Two nets that come from both sides settle the way in, so their order does not matter. -/
theorem both_sides_perm : let nets := [towardsThird ⟨1, 0⟩, towardsThird ⟨3, 0⟩]
    ∃ tables, (longRow.routeNets nets .standard).result = .ok tables ∧
      ∀ nets', nets'.Perm nets → (longRow.routeNets nets' .standard).result = .ok tables := by
  intro nets
  have hok : (longRow.routeNets nets .standard).result.isOk = true := by decide +kernel
  obtain ⟨tables, h⟩ := exists_of_isOk hok
  refine ⟨tables, h, ((routeNets_perm longRow .standard nets rfl).2 tables h).2.2 fun slot => ?_⟩
  exact ⟨Entry.settled_of_length_le (List.length_filterMap_le ..),
    Entry.settled_of_length_le (List.length_filterMap_le ..)⟩

/-- A third net makes the order matter: where two come from the west and one from the east, what
the chip in the middle knows of the way in depends on which of them is last. -/
theorem order_matters :
    let nets := [towardsThird ⟨1, 0⟩, towardsThird ⟨3, 0⟩, towardsThird ⟨0, 0⟩]
    let nets' := [towardsThird ⟨1, 0⟩, towardsThird ⟨0, 0⟩, towardsThird ⟨3, 0⟩]
    nets'.Perm nets ∧ ∃ tables tables', (longRow.routeNets nets .standard).result = .ok tables ∧
      (longRow.routeNets nets' .standard).result = .ok tables' ∧
      tables.get? ⟨⟨2, 0⟩, ⟨0⟩⟩ = some ⟨[], [1], some .west, none⟩ ∧
      tables'.get? ⟨⟨2, 0⟩, ⟨0⟩⟩ = some ⟨[], [1], none, none⟩ ∧ tables ≠ tables' := by
  intro nets nets'
  have hlast : ((longRow.routeNets nets .standard).result.toOption.bind
      (·.get? ⟨⟨2, 0⟩, ⟨0⟩⟩)) = some ⟨[], [1], some .west, none⟩ := by decide +kernel
  have hlast' : ((longRow.routeNets nets' .standard).result.toOption.bind
      (·.get? ⟨⟨2, 0⟩, ⟨0⟩⟩)) = some ⟨[], [1], none, none⟩ := by decide +kernel
  refine ⟨(List.Perm.swap ..).cons _, ?_⟩
  cases h : (longRow.routeNets nets .standard).result with
  | error e => simp [h, Except.toOption] at hlast
  | ok tables =>
      cases h' : (longRow.routeNets nets' .standard).result with
      | error e => simp [h', Except.toOption] at hlast'
      | ok tables' =>
          rw [h] at hlast
          rw [h'] at hlast'
          refine ⟨tables, tables', rfl, rfl, hlast, hlast', ?_⟩
          rintro rfl
          exact absurd (hlast.symm.trans hlast') (by decide)

end Machine

end Multicast
