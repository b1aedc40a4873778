import Multicast.Proofs.Table.Incoming

/-!
# `Multicast.Proofs.Table.Defaultable`: entries a router can do without

A packet for which a router has no entry goes straight on, so an entry that says just
that can be left out (`Entry.isDefaultable`). A merged entry stands for the packets of
several nets and can be left out if the entry of each net can. Its own fields do not
tell: sources that start on different cores clear each other, and after that the entry
reads as if no packet started here (`startingHere_defaultable`).

Each entry of a tree names one way in (`Made.namesOneWayIn`). So what has to be known
besides is that every net comes in over the link the merged entry names. With it the
merged entry speaks for all of them, and two entries always tell of it
(`isDefaultable_merged`).
-/

set_option autoImplicit false

namespace Multicast

/-- Every edge between nodes below the root goes over a link. -/
def RouteTree.OverLinks (t : RouteTree) : Prop :=
  ∀ {p route n}, t.Below t.root p → (route, n) ∈ t.childNodes p → ∃ d, route = some (.link d)

/-- A stop of a tree over links is the root or is reached over a link. -/
theorem RouteTree.OverLinks.arrival {t : RouteTree} (h : t.OverLinks) (ht : t.IsProper)
    {stop : RouteTree.Stop} (hstop : stop ∈ t.stops) :
    stop.arrival = none ∨ ∃ d, stop.arrival = some (.link d) := by
  obtain ⟨⟨arrival, n⟩, hn, hstop⟩ := List.mem_filterMap.1 hstop
  obtain ⟨c, -, rfl⟩ := Option.map_eq_some_iff.1 hstop
  obtain ⟨a, ha, heq⟩ := List.mem_map.1 hn
  obtain ⟨rfl, -⟩ := Prod.mk.inj heq
  have hrow : ∀ n, t.Below t.root n → n ∈ List.range t.size := fun n hn =>
    List.mem_range.2 (ht.lt_size hn)
  have hfound : Search.WellFound t.childNodes t.root t.arrivals.reverse :=
    Search.wellFound_breadthFirst hrow (by simp)
  have hfollows := hfound.follows (List.mem_reverse.2 ha)
  obtain ⟨node, via⟩ := a
  cases via with
  | none => exact .inl rfl
  | some edge =>
      obtain ⟨hsource, hk⟩ := hfollows
      exact .inr (h (hfound.reaches hsource) hk)

namespace Entry

variable {e a b first merged : Entry} {rest : List Entry}

/-- An entry made for a net with a known source from a proper tree over links. -/
def Made (e : Entry) : Prop :=
  ∃ (t : RouteTree) (source : Endpoint) (c : Chip), t.IsProper ∧ t.OverLinks ∧
    ⟨c, e⟩ ∈ t.entries (some source)

/-- An entry names a link packets come in over or a core they start on, and not both. -/
def NamesOneWayIn (e : Entry) : Prop :=
  e.incomingLink = none ↔ e.incomingCore ≠ none

/-- Ways out are added without a way in. -/
theorem incoming_foldl_addRoute (routes : List Route) (e : Entry) :
    (routes.foldl addRoute e).incomingLink = e.incomingLink ∧
      (routes.foldl addRoute e).incomingCore = e.incomingCore := by
  induction routes generalizing e with
  | nil => exact ⟨rfl, rfl⟩
  | cons r routes ih =>
      cases r
      · exact ih _
      · exact ih _

/-- A stop is the root and names the core of the source, or is reached over a link and names that.
Over links there is no third case. -/
theorem Made.namesOneWayIn (h : e.Made) : e.NamesOneWayIn := by
  obtain ⟨t, source, c, ht, hlinks, hmem⟩ := h
  obtain ⟨stop, hstop, -, heq⟩ := RouteTree.mem_entries_iff.1 hmem
  obtain ⟨-, rfl⟩ := ChipEntry.mk.inj heq
  obtain ⟨hlink, hcore⟩ := incoming_foldl_addRoute
    (stop.outgoing ++ t.impliedRoutes stop.node) .empty
  have hlink : (t.outgoingEntry stop).incomingLink = none := hlink
  have hcore : (t.outgoingEntry stop).incomingCore = none := hcore
  rcases hlinks.arrival ht hstop with harrival | ⟨d, harrival⟩
  · cases source <;> simp [NamesOneWayIn, withArrival, harrival, hlink, hcore]
  · simp [NamesOneWayIn, withArrival, harrival, hcore]

/-- An entry can be left out when packets come in over one link and go on over the opposite one. -/
theorem isDefaultable_iff : e.isDefaultable = true ↔ ∃ d, e.incomingLink = some d ∧
    e.incomingCore = none ∧ e.links = [d.opposite] ∧ e.cores = [] := by
  obtain ⟨links, cores, link, core⟩ := e
  unfold isDefaultable
  constructor
  · intro h
    split at h
    · next d out hcores hcore hlink hlinks =>
      exact ⟨d, hlink, hcore, by rw [← eq_of_beq h]; exact hlinks, hcores⟩
    · contradiction
  · rintro ⟨d, rfl, rfl, rfl, rfl⟩
    exact beq_self_eq_true _

/-- Sources that all say the same of a way in leave it so. -/
theorem mergeAll_of_forall_eq {α : Type} [DecidableEq α] {l : List (Option α)} {known : Option α}
    (h : ∀ x ∈ l, x = known) (hne : l ≠ []) : mergeAll l = known := by
  have hself : mergeIncoming known known = known := by
    cases known <;> simp [mergeIncoming]
  have hfold : ∀ l : List (Option α), (∀ x ∈ l, x = known) →
      l.foldl mergeIncoming known = known := by
    intro l
    induction l with
    | nil => exact fun _ => rfl
    | cons x l ih =>
        intro hl
        rw [List.foldl_cons, hl x (List.mem_cons_self ..), hself]
        exact ih fun y hy => hl y (List.mem_cons_of_mem _ hy)
  cases l with
  | nil => contradiction
  | cons x l =>
      rw [mergeAll, List.foldl_cons, mergeIncoming_none_left, h x (List.mem_cons_self ..)]
      exact hfold l fun y hy => h y (List.mem_cons_of_mem _ hy)

/-- To merge two entries is to gather them, if they agree. -/
theorem merge?_eq (a b : Entry) : a.merge? b = if a.agrees b then gather [a, b] else none :=
  Tables.combine_eq (some a) b

/-- Entries merged into one another gather to the last one. -/
theorem foldlM_merge? : rest.foldlM merge? first = some merged ↔
    Agree (first :: rest) ∧ gather (first :: rest) = some merged := by
  induction rest generalizing first with
  | nil =>
      have hself : gather [first] = some first := gather_toList (some first)
      rw [hself]
      exact ⟨fun h => ⟨agree_toList (some first), h⟩, And.right⟩
  | cons b rest ih =>
      rw [List.foldlM_cons, merge?_eq]
      have hagrees : (some first).all (·.agrees b) = true ↔ Agree [first, b] :=
        Tables.agree_snoc
      rw [Option.all_some] at hagrees
      by_cases h : first.agrees b = true
      · obtain ⟨c, hc⟩ := Option.ne_none_iff_exists'.1
          (show gather [first, b] ≠ none by simp [gather_eq_none])
        have hall : Agree ([first, b] ++ rest) ↔ _ := agree_append
        have hgather := gather_append [first, b] rest
        rw [hc] at hall hgather
        rw [if_pos h, hc]
        refine ih.trans ?_
        rw [show first :: b :: rest = [first, b] ++ rest from rfl, hall, ← hgather,
          and_iff_right (hagrees.1 h)]
        exact Iff.rfl
      · rw [if_neg h]
        refine iff_of_false (by simp) fun ⟨hall, _⟩ => h (hagrees.2 (hall.mono ?_))
        intro x hx
        exact List.mem_append_left rest hx

/-- Two entries that name one way in each and merge to one that can be left out both come in over
the link of that. -/
theorem incomingLink_of_pair (ha : a.NamesOneWayIn) (hb : b.NamesOneWayIn) {d : Direction}
    (hlink : mergeIncoming a.incomingLink b.incomingLink = some d)
    (hcore : mergeIncoming a.incomingCore b.incomingCore = none) :
    a.incomingLink = some d ∧ b.incomingLink = some d := by
  unfold NamesOneWayIn at ha hb
  cases hal : a.incomingLink with
  | none =>
      -- The first starts on a core, so the second comes in over the link and does not clear it.
      rw [hal, mergeIncoming_none_left] at hlink
      obtain ⟨c, hc⟩ := Option.ne_none_iff_exists'.1 (ha.1 hal)
      have hbc : b.incomingCore = none := by
        by_contra h
        rw [hb.2 h] at hlink
        contradiction
      rw [hc, hbc] at hcore
      contradiction
  | some l =>
      have hac : a.incomingCore = none := by
        by_contra h
        rw [ha.2 h] at hal
        contradiction
      rw [hac, mergeIncoming_none_left] at hcore
      cases hbl : b.incomingLink with
      | none => exact absurd hcore (hb.1 hbl)
      | some l' =>
          rw [hal, hbl, mergeIncoming] at hlink
          split at hlink
          · next heq => exact ⟨hlink, heq ▸ hlink⟩
          · contradiction

section Gathered

variable {l : List Entry}

/-- What entries gather to says of a way in what they all say. -/
theorem way_of_gather {α : Type} [DecidableEq α] {way : Entry → Option α}
    (hway : ∀ l, (gather l).bind way = mergeAll (l.map way)) (hgather : gather l = some merged)
    {known : Option α} (h : ∀ e ∈ l, way e = known) : way merged = known := by
  have hbind := hway l
  rw [hgather] at hbind
  refine Eq.trans hbind (mergeAll_of_forall_eq (fun x hx => ?_) ?_)
  · obtain ⟨e, he, rfl⟩ := List.mem_map.1 hx
    exact h e he
  · rintro hnil
    rw [List.map_eq_nil_iff.1 hnil] at hgather
    contradiction

/-- Entries with the same ways out that can all be left out come in over the same link. -/
theorem exists_incomingLink (hagree : Agree l) (hne : l ≠ [])
    (h : ∀ e ∈ l, e.isDefaultable = true) : ∃ d, ∀ e ∈ l, e.incomingLink = some d ∧
      e.incomingCore = none ∧ e.links = [d.opposite] ∧ e.cores = [] := by
  obtain ⟨first, hfirst⟩ := List.exists_mem_of_ne_nil l hne
  obtain ⟨d, -, -, hout, -⟩ := isDefaultable_iff.1 (h first hfirst)
  refine ⟨d, fun e he => ?_⟩
  obtain ⟨d', hlink, hcore, hout', hcores⟩ := isDefaultable_iff.1 (h e he)
  -- The one way out is the opposite of the link, so it tells the link.
  have hopposite : d'.opposite = d.opposite := by
    have houts := (hagree e he first hfirst).1
    rw [hout, hout'] at houts
    exact (List.cons.inj houts).1
  obtain rfl : d' = d := by
    rw [← Direction.opposite_opposite d', hopposite, Direction.opposite_opposite]
  exact ⟨hlink, hcore, hout', hcores⟩

/-- What entries that can be left out gather to can be left out, and names the link they name. -/
theorem isDefaultable_of_gather (hagree : Agree l) (hgather : gather l = some merged)
    (h : ∀ e ∈ l, e.isDefaultable = true) :
    merged.isDefaultable = true ∧ ∀ e ∈ l, e.incomingLink = merged.incomingLink := by
  have hne : l ≠ [] := by
    rintro rfl
    contradiction
  obtain ⟨d, hd⟩ := exists_incomingLink hagree hne h
  obtain ⟨first, hfirst⟩ := List.exists_mem_of_ne_nil l hne
  obtain ⟨-, -, hlinks, hcores⟩ := hd first hfirst
  have houts := sameOuts_of_gather hagree hgather hfirst
  have hlink : merged.incomingLink = some d :=
    way_of_gather gather_bind_incomingLink hgather fun e he => (hd e he).1
  have hcore : merged.incomingCore = none :=
    way_of_gather gather_bind_incomingCore hgather fun e he => (hd e he).2.1
  exact ⟨isDefaultable_iff.2 ⟨d, hlink, hcore, houts.1.trans hlinks, houts.2.trans hcores⟩,
    fun e he => (hd e he).1.trans hlink.symm⟩

/-- An entry that names one way in, the link of an entry that can be left out, can be left out. -/
theorem isDefaultable_of_incomingLink (he : e.NamesOneWayIn) (houts : merged.SameOuts e)
    (hmerged : merged.isDefaultable = true) (hlink : e.incomingLink = merged.incomingLink) :
    e.isDefaultable = true := by
  obtain ⟨d, hd, -, hout, hcores⟩ := isDefaultable_iff.1 hmerged
  have hed := hlink.trans hd
  have hcore : e.incomingCore = none := by
    by_contra h
    rw [he.2 h] at hed
    contradiction
  exact isDefaultable_iff.2 ⟨d, hed, hcore, houts.1 ▸ hout, houts.2 ▸ hcores⟩

end Gathered

/-- Where the merged entry can be left out, the entries merged can be left out if they all name the
link it names, and only then; two entries always do. -/
theorem isDefaultable_merged (first merged : Entry) (rest : List Entry)
    (hmade : ∀ e ∈ first :: rest, e.Made) (hmerge : rest.foldlM merge? first = some merged) :
    ((∀ e ∈ first :: rest, e.isDefaultable = true) ↔ merged.isDefaultable = true ∧
      ∀ e ∈ first :: rest, e.incomingLink = merged.incomingLink) ∧
    (rest.length ≤ 1 → merged.isDefaultable = true →
      ∀ e ∈ first :: rest, e.isDefaultable = true) := by
  obtain ⟨hagree, hgather⟩ := foldlM_merge?.1 hmerge
  have hnames : ∀ e ∈ first :: rest, e.NamesOneWayIn := fun e he => (hmade e he).namesOneWayIn
  have hall : merged.isDefaultable = true →
      (∀ e ∈ first :: rest, e.incomingLink = merged.incomingLink) →
      ∀ e ∈ first :: rest, e.isDefaultable = true := fun hmerged hlinks e he =>
    isDefaultable_of_incomingLink (hnames e he) (sameOuts_of_gather hagree hgather he) hmerged
      (hlinks e he)
  refine ⟨⟨isDefaultable_of_gather hagree hgather, fun h => hall h.1 h.2⟩, fun hlen hmerged => ?_⟩
  refine hall hmerged ?_
  cases rest with
  | nil =>
      obtain rfl : first = merged := Option.some.inj hmerge
      simp
  | cons b rest =>
      obtain rfl : rest = [] := List.length_eq_zero_iff.1 (by simpa using hlen)
      obtain ⟨d, hlink, hcore, -, -⟩ := isDefaultable_iff.1 hmerged
      have hmergedLink := gather_bind_incomingLink [first, b]
      have hmergedCore := gather_bind_incomingCore [first, b]
      rw [hgather, Option.bind_some] at hmergedLink hmergedCore
      have hboth := incomingLink_of_pair (hnames first (by simp)) (hnames b (by simp))
        (d := d) (by simpa [mergeAll] using hmergedLink.symm.trans hlink)
        (by simpa [mergeAll] using hmergedCore.symm.trans hcore)
      simpa [hlink] using hboth

/-- The entry of a chip for packets that pass it from west to east. -/
def passing : Entry := ⟨[.east], [], some .west, none⟩

/-- The entry of a chip for packets to the east that start on one of its cores. -/
def startingOn (core : UInt8) : Entry := ⟨[.east], [], none, some core⟩

end Entry

namespace RouteTree

/-- A whole row is over links when its edges are. -/
theorem overLinks_of_row {t : RouteTree}
    (h : ∀ p < t.size, ∀ x ∈ t.childNodes p, ∃ d ∈ Direction.all, x.1 = some (.link d)) :
    t.OverLinks := fun _ hk => by
  obtain ⟨d, -, hd⟩ := h _ (lt_size_of_mem_kids (mem_kids.2 ⟨_, hk⟩)) _ hk
  exact ⟨d, hd⟩

/-- A tree from the first to the third chip of a row. -/
def eastward : RouteTree :=
  let row := (single ⟨0, 0⟩).addChild 0 (some (.link .east)) ⟨1, 0⟩
  let row := row.addChild 1 (some (.link .east)) ⟨2, 0⟩
  row.addEdge 2 ⟨some (.core 1), .terminal (.core ⟨2, 0⟩ 1)⟩

/-- A tree from the second to the third chip of the row. -/
def eastwardHalf : RouteTree :=
  let row := (single ⟨1, 0⟩).addChild 0 (some (.link .east)) ⟨2, 0⟩
  row.addEdge 1 ⟨some (.core 1), .terminal (.core ⟨2, 0⟩ 1)⟩

end RouteTree

namespace Entry

/-- The entry of the chip a tree passes straight through is one that a net makes. -/
theorem made_passing : passing.Made :=
  ⟨.eastward, .core ⟨0, 0⟩ 1, ⟨1, 0⟩,
    RouteTree.isProper_of_row (by decide) (by decide) (by decide) (by decide) (by decide),
    RouteTree.overLinks_of_row (by decide), by decide +kernel⟩

/-- So is that of the chip its source is on, for each of two cores. -/
theorem made_startingOn {core : UInt8} (h : core ∈ [1, 2]) : (startingOn core).Made := by
  refine ⟨.eastwardHalf, .core ⟨1, 0⟩ core, ⟨1, 0⟩,
    RouteTree.isProper_of_row (by decide) (by decide) (by decide) (by decide) (by decide),
    RouteTree.overLinks_of_row (by decide), ?_⟩
  have hmem : ∀ core ∈ [(1 : UInt8), 2], ⟨⟨1, 0⟩, startingOn core⟩ ∈
      RouteTree.eastwardHalf.entries (some (.core ⟨1, 0⟩ core)) := by decide +kernel
  exact hmem core h

/-- Two nets that pass the chip the same way leave an entry that can be left out for both. -/
theorem passing_twice :
    [passing].foldlM merge? passing = some passing ∧ passing.isDefaultable = true ∧
      ∀ e ∈ [passing, passing], e.Made ∧ e.isDefaultable = true := by
  have hmade : ∀ e ∈ [passing, passing], e.Made := by simp [made_passing]
  have hmerge : [passing].foldlM merge? passing = some passing := by decide
  have hpassing : passing.isDefaultable = true := by decide
  have h := (isDefaultable_merged passing passing [passing] hmade hmerge).2 (by decide) hpassing
  exact ⟨hmerge, hpassing, fun e he => ⟨hmade e he, h e he⟩⟩

/-- A net that passes the chip and two that start on different cores of it leave the entry of the
first, which can be left out, though those of the others cannot. -/
theorem startingHere_defaultable :
    (∀ e ∈ [passing, startingOn 1, startingOn 2], e.Made) ∧ passing.isEmpty = false ∧
      [startingOn 1, startingOn 2].foldlM merge? passing = some passing ∧
      passing.isDefaultable = true ∧ (startingOn 1).isDefaultable = false ∧
      (startingOn 2).isDefaultable = false := by
  refine ⟨?_, by decide, by decide, by decide, by decide, by decide⟩
  simp [made_passing, made_startingOn]

end Entry

end Multicast
