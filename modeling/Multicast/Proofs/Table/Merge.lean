import Multicast.Proofs.Table.Entries

/-!
# `Multicast.Proofs.Table.Merge`: rows put into tables one after another

However many rows are put into tables, each slot sees only the entries meant for it
(`Tables.entriesAt`). They can all be put there exactly if any two of them have the same ways
out (`Entry.Agree`), and the slot then holds what they gather to (`Entry.gather`): the ways
out they share, and the ways in merged from left to right.

`Tables.addRows_spec` is this for whole lists of rows, with the error that ends an attempt
that fails. `addRows_of_nodup` is the case of rows for different slots, which never fails.
-/

set_option autoImplicit false

namespace Multicast

namespace Entry

variable {a b c e : Entry} {l rest : List Entry}

/-- An entry has its own ways out. -/
theorem SameOuts.refl (a : Entry) : a.SameOuts a := ⟨rfl, rfl⟩

/-- If one entry has the ways out of another, so has the other of the one. -/
theorem SameOuts.symm (h : a.SameOuts b) : b.SameOuts a := ⟨h.1.symm, h.2.symm⟩

/-- Entries with the ways out of a third one have each other's. -/
theorem SameOuts.trans (h : a.SameOuts b) (h' : b.SameOuts c) : a.SameOuts c :=
  ⟨h.1.trans h'.1, h.2.trans h'.2⟩

/-- The check made on a merge compares the ways out and nothing else. -/
theorem agrees_iff : a.agrees b = true ↔ a.SameOuts b := by
  simp [agrees, SameOuts]

/-- Any two of the entries have the same ways out. -/
def Agree (l : List Entry) : Prop :=
  ∀ a ∈ l, ∀ b ∈ l, a.SameOuts b

/-- Some of the entries that agree agree. -/
theorem Agree.mono {l' : List Entry} (h : Agree l) (hsub : ∀ a ∈ l', a ∈ l) : Agree l' :=
  fun a ha b hb => h a (hsub a ha) b (hsub b hb)

/-- Without entries there is nothing to disagree. -/
@[simp] theorem agree_nil : Agree [] := by simp [Agree]

/-- One entry at most does not disagree with itself. -/
@[simp] theorem agree_toList (known : Option Entry) : Agree known.toList := by
  cases known with
  | none => exact agree_nil
  | some a => simp [Agree, SameOuts.refl]

/-- What sources say about a way in, one after another. -/
def mergeAll {α : Type} [DecidableEq α] (known : List (Option α)) : Option α :=
  known.foldl mergeIncoming none

section
variable {α : Type} [DecidableEq α]

/-- A source that knows nothing leaves what the other says. -/
@[simp] theorem mergeIncoming_none_left (a : Option α) : mergeIncoming none a = a := by
  cases a <;> rfl

/-- The same the other way round. -/
@[simp] theorem mergeIncoming_none_right (a : Option α) : mergeIncoming a none = a := by
  cases a <;> rfl

/-- One source is taken at its word. -/
@[simp] theorem mergeAll_singleton (a : Option α) : mergeAll [a] = a := by
  simp [mergeAll]

/-- What is known of the first sources can stand for them. -/
theorem mergeAll_append (first rest : List (Option α)) :
    mergeAll (mergeAll first :: rest) = mergeAll (first ++ rest) := by
  simp [mergeAll, List.foldl_append]

end

/-- Entries with the same ways out as one, if there are any: with these ways out, and the ways in
that the entries tell of, merged from left to right. -/
def gather : List Entry → Option Entry
  | [] => none
  | e :: rest => some {
      links := e.links
      cores := e.cores
      incomingLink := mergeAll ((e :: rest).map incomingLink)
      incomingCore := mergeAll ((e :: rest).map incomingCore) }

/-- No entries gather to none. -/
@[simp] theorem gather_nil : gather [] = none := rfl

/-- An entry by itself gathers to itself. -/
@[simp] theorem gather_toList (known : Option Entry) : gather known.toList = known := by
  cases known with
  | none => rfl
  | some a => simp [gather]

/-- Any entries at all gather to something. -/
theorem gather_eq_none : gather l = none ↔ l = [] := by
  cases l <;> simp [gather]

/-- The link that gathered entries name is merged from the links of each. -/
theorem gather_bind_incomingLink (l : List Entry) :
    (gather l).bind (·.incomingLink) = mergeAll (l.map (·.incomingLink)) := by
  cases l <;> rfl

/-- The core that gathered entries name is merged from the cores of each. -/
theorem gather_bind_incomingCore (l : List Entry) :
    (gather l).bind (·.incomingCore) = mergeAll (l.map (·.incomingCore)) := by
  cases l <;> rfl

/-- What entries gather to has the ways out of each of them. -/
theorem sameOuts_of_gather (h : Agree l) (hc : gather l = some c) (ha : a ∈ l) : c.SameOuts a := by
  cases l with
  | nil => simp at ha
  | cons e rest =>
      have hfirst : c.SameOuts e := by
        rw [← Option.some.inj hc]
        exact ⟨rfl, rfl⟩
      exact hfirst.trans (h e (List.mem_cons_self ..) a ha)

/-- What the first entries gather to can stand for them. -/
theorem gather_append (l rest : List Entry) : gather ((gather l).toList ++ rest) =
    gather (l ++ rest) := by
  cases l with
  | nil => rfl
  | cons e l =>
      have hlink := mergeAll_append ((e :: l).map incomingLink) (rest.map incomingLink)
      have hcore := mergeAll_append ((e :: l).map incomingCore) (rest.map incomingCore)
      simp only [List.map_cons, List.cons_append] at hlink hcore
      simp [gather, hlink, hcore]

/-- Whether entries agree can be asked of the first, and then of what these gather to with the rest. -/
theorem agree_append : Agree (l ++ rest) ↔ Agree l ∧ Agree ((gather l).toList ++ rest) := by
  cases hc : gather l with
  | none =>
      rw [gather_eq_none.1 hc]
      simp
  | some c =>
      show Agree (l ++ rest) ↔ Agree l ∧ Agree (c :: rest)
      constructor
      · intro h
        have hl : Agree l := h.mono fun a ha => List.mem_append_left _ ha
        refine ⟨hl, ?_⟩
        -- An entry of the first list has the ways out of what they gather to.
        obtain ⟨e, he⟩ : ∃ e, e ∈ l := List.exists_mem_of_ne_nil l fun hnil => by simp [hnil] at hc
        have hce := sameOuts_of_gather hl hc he
        have hall : ∀ a ∈ c :: rest, a.SameOuts e := by
          intro a ha
          rcases List.mem_cons.1 ha with rfl | ha
          · exact hce
          · exact h a (List.mem_append_right _ ha) e (List.mem_append_left _ he)
        exact fun a ha b hb => (hall a ha).trans (hall b hb).symm
      · rintro ⟨hl, hrest⟩
        have hall : ∀ a ∈ l ++ rest, c.SameOuts a := by
          intro a ha
          rcases List.mem_append.1 ha with ha | ha
          · exact sameOuts_of_gather hl hc ha
          · exact hrest c (List.mem_cons_self ..) a (List.mem_cons_of_mem _ ha)
        exact fun a ha b hb => (hall a ha).symm.trans (hall b hb)

end Entry

namespace Tables

open Entry (Agree gather SameOuts)

variable {t t' : Tables} {slot : Slot} {e : Entry} {rows : List Row}

/-- Puts rows into tables, one after another. -/
def addRows (t : Tables) : List Row → Except RouteError Tables
  | [] => .ok t
  | r :: rest => do
    let next ← t.insert r.slot r.entry
    next.addRows rest

/-- The entries that rows have for a slot. -/
def entriesAt (slot : Slot) (rows : List Row) : List Entry :=
  rows.filterMap fun r => if r.slot = slot then some r.entry else none

/-- What a slot holds and what is to be put there. -/
def meant (t : Tables) (rows : List Row) (slot : Slot) : List Entry :=
  (t.get? slot).toList ++ entriesAt slot rows

/-- Rows can be put into tables in two parts. -/
theorem addRows_append (t : Tables) (rows more : List Row) :
    t.addRows (rows ++ more) = t.addRows rows >>= fun next => next.addRows more := by
  induction rows generalizing t with
  | nil => rfl
  | cons r rest ih =>
      rw [List.cons_append, addRows, addRows]
      cases t.insert r.slot r.entry with
      | error e => rfl
      | ok next => exact ih next

/-- The entries that rows have for a slot are those of the rows for it. -/
theorem mem_entriesAt : e ∈ entriesAt slot rows ↔ ⟨slot, e⟩ ∈ rows := by
  simp only [entriesAt, List.mem_filterMap, Option.ite_none_right_eq_some, Option.some.injEq]
  constructor
  · rintro ⟨r, hr, rfl, rfl⟩
    exact hr
  · exact fun h => ⟨_, h, rfl, rfl⟩

/-- Rows in two parts have the entries of both. -/
@[simp] theorem entriesAt_append (slot : Slot) (rows more : List Row) :
    entriesAt slot (rows ++ more) = entriesAt slot rows ++ entriesAt slot more :=
  List.filterMap_append

/-- What is meant for a slot of empty tables comes from the rows alone. -/
theorem meant_empty (rows : List Row) (slot : Slot) :
    empty.meant rows slot = entriesAt slot rows := by
  simp [meant]

/-- One row changes what is meant for its own slot only. -/
theorem meant_cons (t : Tables) (r : Row) (rest : List Row) (slot : Slot) :
    t.meant (r :: rest) slot =
      if r.slot = slot then ((t.get? r.slot).toList ++ [r.entry]) ++ entriesAt slot rest
      else t.meant rest slot := by
  unfold meant entriesAt
  by_cases h : r.slot = slot
  · simp [h]
  · simp [h]

/-- A slot that is given an entry has that to go with the rows still to come. -/
theorem meant_set (t : Tables) (known : Slot) (c : Entry) (rest : List Row) (slot : Slot) :
    (t.set known c).meant rest slot =
      if known = slot then c :: entriesAt slot rest else t.meant rest slot := by
  unfold meant
  rw [get?_set]
  by_cases h : known = slot
  · rw [if_pos h, if_pos h.symm]
    rfl
  · rw [if_neg h, if_neg (Ne.symm h)]

/-- What a slot holds takes one more entry if the two agree. -/
theorem combine_eq (known : Option Entry) (e : Entry) :
    combine known e = if (known.all fun k => k.agrees e) then gather (known.toList ++ [e])
      else none := by
  cases known with
  | none => simp [combine, gather]
  | some k =>
      simp only [combine, Entry.merge?, Option.all_some]
      split
      · simp [gather, Entry.mergeAll]
      · rfl

/-- Checking an entry against what a slot holds decides whether all that is meant for it agrees. -/
theorem agree_snoc {known : Option Entry} :
    (known.all fun k => k.agrees e) = true ↔ Agree (known.toList ++ [e]) := by
  cases known with
  | none => simp [Agree, SameOuts.refl]
  | some k =>
      simp only [Option.all_some, Entry.agrees_iff]
      constructor
      · intro h
        have hall : ∀ a ∈ [k, e], a.SameOuts e := by simp [h, SameOuts.refl]
        exact fun a ha b hb => (hall a ha).trans (hall b hb).symm
      · exact fun h => h k (by simp) e (by simp)

/-- An entry that is put into a slot is gathered with what the slot held, or disagrees with it. -/
theorem insert_cases (t : Tables) (slot : Slot) (e : Entry) :
    (∃ c, Agree ((t.get? slot).toList ++ [e]) ∧ gather ((t.get? slot).toList ++ [e]) = some c ∧
      t.insert slot e = .ok (t.set slot c)) ∨
    (¬ Agree ((t.get? slot).toList ++ [e]) ∧
      t.insert slot e = .error (.conflict slot.chip slot.partition)) := by
  rw [insert, combine_eq]
  by_cases h : ((t.get? slot).all fun k => k.agrees e) = true
  · have hne : gather ((t.get? slot).toList ++ [e]) ≠ none := by simp [Entry.gather_eq_none]
    obtain ⟨c, hc⟩ := Option.ne_none_iff_exists'.1 hne
    rw [if_pos h, hc]
    exact .inl ⟨c, agree_snoc.1 h, rfl, rfl⟩
  · rw [if_neg h]
    exact .inr ⟨fun hagree => h (agree_snoc.2 hagree), rfl⟩

/-- Once the first row is in, its slot holds what stands for the row and for what was there
before, and what is meant for the slots comes to the same. -/
theorem meant_set_gathered {r : Row} {c : Entry}
    (hagree : Agree ((t.get? r.slot).toList ++ [r.entry]))
    (hc : gather ((t.get? r.slot).toList ++ [r.entry]) = some c) (rest : List Row) (slot : Slot) :
    (Agree (t.meant (r :: rest) slot) ↔ Agree ((t.set r.slot c).meant rest slot)) ∧
      gather (t.meant (r :: rest) slot) = gather ((t.set r.slot c).meant rest slot) := by
  rw [meant_cons, meant_set]
  by_cases hslot : r.slot = slot
  · have happend := Entry.gather_append ((t.get? r.slot).toList ++ [r.entry]) (entriesAt slot rest)
    rw [if_pos hslot, if_pos hslot, Entry.agree_append, ← happend, hc]
    exact ⟨and_iff_right hagree, rfl⟩
  · rw [if_neg hslot, if_neg hslot]
    exact ⟨Iff.rfl, rfl⟩

/-- Rows can be put into tables if for each slot the entries agree, and each slot then holds what
is gathered from what it held and what was meant for it. Otherwise the error names a slot for
which they disagree. -/
theorem addRows_spec (t : Tables) (rows : List Row) :
    (∃ t', t.addRows rows = .ok t' ∧ ∀ slot, Agree (t.meant rows slot) ∧
      t'.get? slot = gather (t.meant rows slot)) ∨
    ∃ slot : Slot, t.addRows rows = .error (.conflict slot.chip slot.partition) ∧
      ¬ Agree (t.meant rows slot) := by
  induction rows generalizing t with
  | nil =>
      refine .inl ⟨t, rfl, fun slot => ?_⟩
      simp [meant, entriesAt]
  | cons r rest ih =>
      rcases insert_cases t r.slot r.entry with ⟨c, hagree, hc, hok⟩ | ⟨hno, herror⟩
      · have hadd : t.addRows (r :: rest) = (t.set r.slot c).addRows rest := by
          rw [addRows, hok]
          rfl
        simp only [hadd, (meant_set_gathered hagree hc rest _).1,
          (meant_set_gathered hagree hc rest _).2]
        exact ih (t.set r.slot c)
      · have hadd : t.addRows (r :: rest) = .error (.conflict r.slot.chip r.slot.partition) := by
          rw [addRows, herror]
          rfl
        refine .inr ⟨r.slot, hadd, fun h => hno (h.mono fun a ha => ?_)⟩
        rw [meant_cons, if_pos rfl]
        exact List.mem_append_left _ ha

/-- Rows can be put into tables exactly when the entries agree slot by slot, and then each slot has
what its entries gather to. Tables are determined by their slots, so this says which tables. -/
theorem addRows_eq_ok : t.addRows rows = .ok t' ↔ ∀ slot, Agree (t.meant rows slot) ∧
    t'.get? slot = gather (t.meant rows slot) := by
  rcases addRows_spec t rows with ⟨u, hu, hspec⟩ | ⟨slot, herror, hno⟩
  · rw [hu, Except.ok.injEq]
    constructor
    · rintro rfl
      exact hspec
    · exact fun h => ext fun slot => (hspec slot).2.trans (h slot).2.symm
  · rw [herror]
    constructor
    · exact fun h => by contradiction
    · exact fun h => absurd (h slot).1 hno

/-- Whether rows can be put into tables is a question about each slot by itself. -/
theorem exists_addRows : (∃ t', t.addRows rows = .ok t') ↔ ∀ slot, Agree (t.meant rows slot) := by
  rcases addRows_spec t rows with ⟨u, hu, hspec⟩ | ⟨slot, herror, hno⟩
  · exact ⟨fun _ slot => (hspec slot).1, fun _ => ⟨u, hu⟩⟩
  · constructor
    · rintro ⟨u, hu⟩
      rw [herror] at hu
      contradiction
    · exact fun h => absurd (h slot) hno

/-- Rows for different slots have at most one entry for a slot. -/
theorem exists_entriesAt_eq (h : (rows.map (·.slot)).Nodup) (slot : Slot) :
    ∃ known : Option Entry, entriesAt slot rows = known.toList := by
  induction rows with
  | nil => exact ⟨none, rfl⟩
  | cons r rest ih =>
      obtain ⟨hnew, hrest⟩ := List.nodup_cons.1 h
      by_cases hslot : r.slot = slot
      · -- No later row is for the slot.
        have hnil : entriesAt slot rest = [] := by
          refine List.eq_nil_iff_forall_not_mem.2 fun e he => hnew ?_
          exact List.mem_map.2 ⟨_, mem_entriesAt.1 he, hslot.symm⟩
        refine ⟨some r.entry, ?_⟩
        rw [entriesAt, List.filterMap_cons, if_pos hslot]
        exact congrArg (r.entry :: ·) hnil
      · rw [entriesAt, List.filterMap_cons, if_neg hslot]
        exact ih hrest

/-- Rows for different slots can be put into empty tables, which then hold just them. -/
theorem addRows_of_nodup (h : (rows.map (·.slot)).Nodup) :
    ∃ t, empty.addRows rows = .ok t ∧ ∀ slot, entriesAt slot rows = (t.get? slot).toList := by
  have hagree : ∀ slot, Agree (empty.meant rows slot) := by
    intro slot
    obtain ⟨known, hknown⟩ := exists_entriesAt_eq h slot
    rw [meant_empty, hknown]
    exact Entry.agree_toList known
  obtain ⟨t, ht⟩ := exists_addRows.2 hagree
  refine ⟨t, ht, fun slot => ?_⟩
  obtain ⟨known, hknown⟩ := exists_entriesAt_eq h slot
  rw [(addRows_eq_ok.1 ht slot).2, meant_empty, hknown, Entry.gather_toList]

/-- Entries of chips are rows of one partition. -/
theorem addRows_map (t : Tables) (p : Partition) (list : List ChipEntry) :
    t.addRows (list.map fun x => ⟨⟨x.chip, p⟩, x.entry⟩) =
      match t.addEntries p list with
      | (t', none) => .ok t'
      | (_, some error) => .error error := by
  induction list generalizing t with
  | nil => rfl
  | cons x rest ih =>
      rw [List.map_cons, addRows, addEntries]
      cases t.insert ⟨x.chip, p⟩ x.entry with
      | error e => rfl
      | ok next => exact ih next

end Tables

end Multicast
