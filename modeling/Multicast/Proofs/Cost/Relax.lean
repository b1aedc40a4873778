import Mathlib.Data.List.Nodup
import Mathlib.Data.List.Perm.Subperm
import Mathlib.Order.Bounds.Defs
import Multicast.Cost.Relax
import Multicast.Proofs.Collection.Heap
import Multicast.Proofs.Cost.Pressure
import Multicast.Proofs.Machine.Paths

/-!
# `Multicast.Proofs.Cost.Relax`: settled costs are the least there are

With exact costs, none of them negative, the chips are settled with the least totals of paths
that lead to them (`CostRouter.Cheapest`), and a destination is left over only if no path leads
there (`settles_relax`).

Between two turns an offer of no more than the total of any path waits for the first chip on it
that is not settled (`Relaxing.exists_waiting`). The heap gives up the smallest of all offers, so
that offer cannot be beaten. Offers to chips settled meanwhile stay on the heap and change
nothing. While a chip is being settled the hops not yet offered over are left out of account
(`pending`).
-/

set_option autoImplicit false

namespace Multicast.CostRouter

/-! ### Paths and their totals -/

/-- Hops over working links with room that lead from a chip to another, with their total cost. -/
inductive Leads (r : CostRouter Rat) (source : Chip) : List Hop → Chip → Rat → Prop
  | start : Leads r source [] source 0
  | hop {hops : List Hop} {a c : Chip} {d : Direction} {total w : Rat}
      (h : Leads r source hops a total) (hlink : r.machine.follow? a d = some c)
      (hcost : r.linkCost a d c = some w) : Leads r source (hops ++ [⟨d, c⟩]) c (total + w)

/-- The totals of all paths to a chip. -/
def totals (r : CostRouter Rat) (source c : Chip) : Set Rat :=
  fun total => ∃ hops, r.Leads source hops c total

/-- Every working link that can be crossed costs at least as much. -/
def CostsAtLeast (r : CostRouter Rat) (k : Rat) : Prop :=
  ∀ ⦃a d c w⦄, r.machine.follow? a d = some c → r.linkCost a d c = some w → k ≤ w

/-- Costs recorded for chips are the least totals, and every chip with a smaller total than a
chip that has a cost recorded has one too. -/
structure Cheapest (r : CostRouter Rat) (source : Chip) (costs : Std.ExtTreeMap Chip Rat) :
    Prop where
  least : ∀ {c : Chip} {q : Rat}, costs[c]? = some q → IsLeast (r.totals source c) q
  nearer : ∀ {a c : Chip} {p q : Rat}, costs[c]? = some q → p ∈ r.totals source a → p < q →
    a ∈ costs

variable {r : CostRouter Rat} {source a c : Chip} {d : Direction} {hops : List Hop} {hop : Hop}
  {p q total w : Rat} {o x : Offer Rat} {s : Relaxation Rat} {pending : Chip → Hop → Prop}
  {costs : Std.ExtTreeMap Chip Rat} {destinations : List Chip}

/-- A chip is recorded when a cost is found for it. -/
theorem mem_iff_exists_cost : c ∈ costs ↔ ∃ q, costs[c]? = some q := by
  rw [← Std.ExtTreeMap.isSome_getElem?_iff_mem, Option.isSome_iff_exists]

/-- What every link costs at least can be named lower. -/
theorem CostsAtLeast.mono {k k' : Rat} (h : r.CostsAtLeast k) (hle : k' ≤ k) :
    r.CostsAtLeast k' :=
  fun _ _ _ _ hlink hcost => hle.trans (h hlink hcost)

/-- No hops lead from the source to itself and cost nothing. -/
theorem zero_mem_totals (r : CostRouter Rat) (source : Chip) : 0 ∈ r.totals source source :=
  ⟨[], .start⟩

/-- A path can be led on over any working link that can be crossed, at the cost of that link. -/
theorem add_mem_totals (h : total ∈ r.totals source a) (hlink : r.machine.follow? a d = some c)
    (hcost : r.linkCost a d c = some w) : total + w ∈ r.totals source c := by
  obtain ⟨hops, h⟩ := h
  exact ⟨_, h.hop hlink hcost⟩

/-- Paths from a working chip lead to working chips, because links that work do. -/
theorem Leads.isChip (h : r.Leads source hops c total)
    (hsource : r.machine.isChip source = true) : r.machine.isChip c = true := by
  cases h with
  | start => exact hsource
  | hop _ hlink _ => exact (Fabric.isChip_of_follow? hlink).2

/-! ### The order of offers -/

/-- An offer goes no earlier than another when it costs more, or costs the same and is made to a
later chip or the same one. Exact costs leave no third case. -/
theorem Offer.atMost_iff {x y : Offer Rat} : x.atMost y = true ↔
    y.cost < x.cost ∨ y.cost = x.cost ∧ (compare y.chip x.chip).isLE = true := by
  have hturn : (compare x.chip y.chip).isLT = false ↔ (compare y.chip x.chip).isLE = true := by
    rw [Std.OrientedOrd.eq_swap (a := x.chip)]
    cases compare y.chip x.chip <;> simp
  simp only [atMost, goesBefore, Quantity.lt_rat, Bool.not_eq_true', Bool.or_eq_false_iff,
    decide_eq_false_iff_not, not_lt, Bool.and_eq_false_imp, hturn]
  constructor
  · rintro ⟨hle, hchip⟩
    exact hle.lt_or_eq.imp_right fun heq => ⟨heq, hchip heq.ge⟩
  · rintro (hlt | ⟨heq, hchip⟩)
    · exact ⟨hlt.le, fun hle => absurd hlt hle.not_gt⟩
    · exact ⟨heq.le, fun _ => hchip⟩

/-- Any two offers compare, as the heap asks for: by their costs, and where these are equal by their
chips. -/
theorem Offer.isOrder : Heap.IsOrder (Offer.atMost (ν := Rat)) where
  total x y := by
    rw [atMost_iff, atMost_iff]
    rcases lt_trichotomy x.cost y.cost with hlt | heq | hlt
    · exact .inr (.inl hlt)
    · rw [heq]
      simp only [lt_irrefl, false_or, true_and]
      rw [Std.OrientedOrd.eq_swap (a := x.chip)]
      cases compare y.chip x.chip <;> simp
    · exact .inl (.inl hlt)
  trans {x y z} hxy hyz := by
    rw [atMost_iff] at *
    rcases hxy with hxy | ⟨hxy, hchip⟩
    · rcases hyz with hyz | ⟨hyz, -⟩
      · exact .inl (hyz.trans hxy)
      · exact .inl (hyz ▸ hxy)
    · rcases hyz with hyz | ⟨hyz, hchip'⟩
      · exact .inl (hxy ▸ hyz)
      · exact .inr ⟨hyz.trans hxy, Std.TransCmp.isLE_trans hchip' hchip⟩

/-- An offer that goes no earlier is no cheaper, so what the heap gives up has the least cost of all
that waits. -/
theorem Offer.le_of_atMost {x y : Offer Rat} (h : x.atMost y = true) : y.cost ≤ x.cost := by
  rcases atMost_iff.1 h with hlt | ⟨heq, -⟩
  · exact hlt.le
  · exact heq.le

/-! ### What holds while chips are settled -/

/-- A chip is settled, or an offer of at most a cost waits for it. -/
def Relaxation.Covers (s : Relaxation Rat) (c : Chip) (p : Rat) : Prop :=
  c ∈ s.settled ∨ ∃ o ∈ s.queue.items, o.chip = c ∧ o.cost ≤ p

/-- A chip that is taken care of at some cost stays so at a higher one, as long as settled chips
stay settled and an offer leaves the heap only when its chip is settled. -/
theorem Relaxation.Covers.mono {s' : Relaxation Rat} (h : s.Covers c p) (hle : p ≤ q)
    (hsettled : ∀ c ∈ s.settled, c ∈ s'.settled)
    (hqueue : ∀ o ∈ s.queue.items, o.chip ∈ s'.settled ∨ o ∈ s'.queue.items) : s'.Covers c q := by
  rcases h with hc | ⟨o, ho, rfl, hcost⟩
  · exact .inl (hsettled c hc)
  · exact (hqueue o ho).imp_right fun ho => ⟨o, ho, rfl, hcost.trans hle⟩

/-- The offers on the heap are totals of paths, and apart from the hops in `pending` every hop
away from a settled chip was offered over. -/
structure Relaxing (r : CostRouter Rat) (source : Chip) (pending : Chip → Hop → Prop)
    (s : Relaxation Rat) : Prop where
  ordered : Heap.Ordered Offer.atMost s.queue.items
  paid : ∀ o ∈ s.queue.items, o.cost ∈ r.totals source o.chip
  known : ∀ {c : Chip} {q : Rat}, s.offers[c]? = some q → s.Covers c q
  cheapest : r.Cheapest source s.settled
  begun : s.Covers source 0
  passed : ∀ {a c : Chip} {d : Direction} {q w : Rat}, s.settled[a]? = some q →
    r.machine.follow? a d = some c → r.linkCost a d c = some w →
    pending a ⟨d, c⟩ ∨ s.Covers c (q + w)

namespace Relaxing

/-- With nothing pending, an offer of at most the total of a path waits unless its end is settled.
This is the lemma that everything hangs on, and it needs that no link costs less than nothing. -/
theorem exists_waiting (h : Relaxing r source (fun _ _ => False) s) (hnonneg : r.CostsAtLeast 0)
    (hp : p ∈ r.totals source c) (hc : c ∉ s.settled) : ∃ o ∈ s.queue.items, o.cost ≤ p := by
  -- It waits for the first chip of the path that is not settled.
  suffices hcovers : c ∈ s.settled ∨ ∃ o ∈ s.queue.items, o.cost ≤ p from hcovers.resolve_left hc
  clear hc
  obtain ⟨hops, hleads⟩ := hp
  induction hleads with
  | start => exact h.begun.imp_right fun ⟨o, ho, _, hle⟩ => ⟨o, ho, hle⟩
  | @hop hops a c d total w hleads hlink hcost ih =>
      have hle : total ≤ total + w := le_add_of_nonneg_right (hnonneg hlink hcost)
      rcases ih with ha | ⟨o, ho, hcost'⟩
      · obtain ⟨q, hq⟩ := mem_iff_exists_cost.1 ha
        have hcovers := (h.passed hq hlink hcost).resolve_left id
        refine hcovers.imp_right fun ⟨o, ho, _, hcost'⟩ => ⟨o, ho, hcost'.trans ?_⟩
        exact (add_le_add_iff_right w).2 ((h.cheapest.least hq).2 ⟨hops, hleads⟩)
      · exact .inr ⟨o, ho, hcost'.trans hle⟩

/-- Hops left out of account may be others, as long as all working ones are among them. -/
theorem narrow {pending' : Chip → Hop → Prop} (h : Relaxing r source pending s)
    (hpending : ∀ a hop, r.machine.follow? a hop.link = some hop.chip → pending a hop →
      pending' a hop) : Relaxing r source pending' s :=
  { h with passed := fun hq hlink hcost =>
      (h.passed hq hlink hcost).imp_left (hpending _ ⟨_, _⟩ hlink) }

/-- A total of a path may be noted and go on the heap. What was taken care of stays so, and the chip
is taken care of by the offer. -/
theorem push (h : Relaxing r source pending s) (hq : q ∈ r.totals source c) :
    Relaxing r source pending
      { s with
        offers := s.offers.insert c q
        queue := s.queue.push Offer.atMost ⟨c, q⟩ } := by
  have hkept {b : Chip} {p : Rat} (hb : s.Covers b p) :
      Relaxation.Covers
        { s with offers := s.offers.insert c q, queue := s.queue.push Offer.atMost ⟨c, q⟩ } b p :=
    hb.mono le_rfl (fun _ => id) fun o ho => .inr (Heap.mem_push.2 (.inr ho))
  refine ⟨Heap.ordered_push Offer.isOrder h.ordered _, ?_, ?_, h.cheapest, hkept h.begun, ?_⟩
  · intro o ho
    rcases Heap.mem_push.1 ho with rfl | ho
    · exact hq
    · exact h.paid o ho
  · intro b p hp
    rw [Std.ExtTreeMap.getElem?_insert] at hp
    split at hp
    · next hbc =>
      obtain rfl := Std.LawfulEqOrd.eq_of_compare hbc
      exact .inr ⟨⟨c, q⟩, Heap.mem_push.2 (.inl rfl), rfl, (Option.some.inj hp).le⟩
    · exact hkept (h.known hp)
  · exact fun hq hlink hcost => (h.passed hq hlink hcost).imp_right hkept

/-- Once its offer is covered, a hop is no longer pending. -/
theorem cover {links : List Hop}
    (h : Relaxing r source (fun a x => a = o.chip ∧ x ∈ hop :: links) s)
    (ho : s.settled[o.chip]? = some o.cost)
    (hcovers : ∀ w, r.linkCost o.chip hop.link hop.chip = some w →
      s.Covers hop.chip (o.cost + w)) :
    Relaxing r source (fun a x => a = o.chip ∧ x ∈ links) s := by
  refine { h with passed := fun {a c d q w} hq hlink hcost => ?_ }
  rcases h.passed hq hlink hcost with ⟨rfl, hmem⟩ | hdone
  · rcases List.mem_cons.1 hmem with rfl | hmem
    · obtain rfl := Option.some.inj (ho.symm.trans hq)
      exact .inr (hcovers w hcost)
    · exact .inl ⟨rfl, hmem⟩
  · exact .inr hdone

end Relaxing

/-! ### One offer -/

/-- An offer is passed over, or it is noted and goes on the heap. It is passed over for a chip that
is settled, over a link that cannot be crossed, and when what is on the heap for the chip is as
good. -/
theorem offer_cases (r : CostRouter Rat) (o : Offer Rat) (s : Relaxation Rat) (hop : Hop) :
    (r.offer o s hop = s ∧ ∀ w, r.linkCost o.chip hop.link hop.chip = some w →
      hop.chip ∈ s.settled ∨ ∃ q, s.offers[hop.chip]? = some q ∧ q ≤ o.cost + w) ∨
    ∃ w, r.linkCost o.chip hop.link hop.chip = some w ∧ r.offer o s hop =
      { s with
        offers := s.offers.insert hop.chip (o.cost + w)
        queue := s.queue.push Offer.atMost ⟨hop.chip, o.cost + w⟩ } := by
  unfold offer
  split
  · next hsettled =>
    exact .inl ⟨rfl, fun _ _ => .inl (Std.ExtTreeMap.mem_iff_contains.2 hsettled)⟩
  · split
    · next hfull => exact .inl ⟨rfl, fun w hw => absurd (hfull.symm.trans hw) (by simp)⟩
    · next w hw =>
      dsimp only
      split
      · exact .inr ⟨w, hw, rfl⟩
      · next hworse =>
        refine .inl ⟨rfl, fun w' hw' => .inr ?_⟩
        obtain rfl := Option.some.inj (hw.symm.trans hw')
        cases hq : s.offers[hop.chip]? with
        | none => simp [hq, isBetter] at hworse
        | some q => exact ⟨q, rfl, by simpa [hq, isBetter] using hworse⟩

/-- An offer settles nothing and adds at most one element to the heap. -/
theorem offer_frame (r : CostRouter Rat) (o : Offer Rat) (s : Relaxation Rat) (hop : Hop) :
    (r.offer o s hop).settled = s.settled ∧ (r.offer o s hop).remaining = s.remaining ∧
      (r.offer o s hop).queue.items.size ≤ s.queue.items.size + 1 := by
  rcases offer_cases r o s hop with ⟨hsame, -⟩ | ⟨w, -, hpush⟩
  · rw [hsame]
    exact ⟨rfl, rfl, Nat.le_succ _⟩
  · rw [hpush]
    exact ⟨rfl, rfl, Heap.size_push.le⟩

/-- After an offer over a hop the hop is no longer pending. The case that it was passed over is the
one to look at: then the chip was settled, or an offer no dearer was known and waits or has been
settled. -/
theorem Relaxing.offer {links : List Hop}
    (h : Relaxing r source (fun a x => a = o.chip ∧ x ∈ hop :: links) s)
    (ho : s.settled[o.chip]? = some o.cost)
    (hlink : r.machine.follow? o.chip hop.link = some hop.chip) :
    Relaxing r source (fun a x => a = o.chip ∧ x ∈ links) (r.offer o s hop) := by
  rcases offer_cases r o s hop with ⟨hsame, hpassed⟩ | ⟨w, hw, hpush⟩
  · rw [hsame]
    refine h.cover ho fun w hw => ?_
    rcases hpassed w hw with hsettled | ⟨q, hq, hle⟩
    · exact .inl hsettled
    · exact (h.known hq).mono hle (fun _ => id) fun _ => .inr
  · rw [hpush]
    have htotal : o.cost + w ∈ r.totals source hop.chip :=
      add_mem_totals (h.cheapest.least ho).1 hlink hw
    refine (h.push htotal).cover ho fun w' hw' => ?_
    obtain rfl := Option.some.inj (hw.symm.trans hw')
    exact .inr ⟨⟨hop.chip, o.cost + w⟩, Heap.mem_push.2 (.inl rfl), rfl, le_rfl⟩

/-! ### Settling a chip -/

/-- Offers over the hops away from a chip settle nothing and are no more than the hops. -/
theorem foldl_offer_frame (r : CostRouter Rat) (o : Offer Rat) (links : List Hop)
    (s : Relaxation Rat) :
    (links.foldl (r.offer o) s).settled = s.settled ∧
      (links.foldl (r.offer o) s).remaining = s.remaining ∧
      (links.foldl (r.offer o) s).queue.items.size ≤ s.queue.items.size + links.length := by
  induction links generalizing s with
  | nil => exact ⟨rfl, rfl, le_rfl⟩
  | cons hop rest ih =>
      obtain ⟨hsettled, hremaining, hsize⟩ := ih (r.offer o s hop)
      obtain ⟨hsettled', hremaining', hsize'⟩ := offer_frame r o s hop
      rw [List.foldl_cons, hsettled, hremaining, List.length_cons]
      exact ⟨hsettled', hremaining', by omega⟩

/-- After the offers over all hops away from a chip nothing is pending. -/
theorem Relaxing.foldl_offer {links : List Hop}
    (h : Relaxing r source (fun a x => a = o.chip ∧ x ∈ links) s)
    (ho : s.settled[o.chip]? = some o.cost)
    (hlinks : ∀ hop ∈ links, r.machine.follow? o.chip hop.link = some hop.chip) :
    Relaxing r source (fun _ _ => False) (links.foldl (r.offer o) s) := by
  induction links generalizing s with
  | nil => exact h.narrow fun _ _ _ hx => absurd hx.2 List.not_mem_nil
  | cons hop rest ih =>
      obtain ⟨hlink, hrest⟩ := List.forall_mem_cons.1 hlinks
      refine ih (h.offer ho hlink) ?_ hrest
      rw [(offer_frame r o s hop).1]
      exact ho

/-- A chip has six links, so settling it makes six offers at most. -/
theorem length_liveLinks_le (f : Fabric) (c : Chip) : (f.liveLinks c).length ≤ 6 :=
  List.length_filterMap_le _ _

section

variable {offers settled : Std.ExtTreeMap Chip Rat} {remaining : Std.ExtTreeSet Chip}
  {queue rest : Heap (Offer Rat)}

namespace Relaxing

/-- No path to an unsettled chip has a smaller total than the offer the heap gives up. -/
theorem le_of_pop? (h : Relaxing r source (fun _ _ => False) s) (hnonneg : r.CostsAtLeast 0)
    (hpop : s.queue.pop? Offer.atMost = some (o, rest)) (hp : p ∈ r.totals source c)
    (hc : c ∉ s.settled) : o.cost ≤ p := by
  obtain ⟨x, hx, hle⟩ := h.exists_waiting hnonneg hp hc
  obtain ⟨-, -, hsmallest⟩ := Heap.pop?_spec Offer.isOrder h.ordered hpop
  exact (Offer.le_of_atMost (hsmallest x hx)).trans hle

/-- An offer may be taken from the heap once its chip is settled. What it was to take care of is
settled now. Hops away from a chip that is settled by this may be pending. -/
theorem take (h : Relaxing r source (fun _ _ => False) ⟨offers, settled, remaining, queue⟩)
    (hpop : queue.pop? Offer.atMost = some (o, rest)) {settled' : Std.ExtTreeMap Chip Rat}
    {remaining' : Std.ExtTreeSet Chip} (hkept : ∀ c ∈ settled, c ∈ settled')
    (ho : o.chip ∈ settled') (hcheapest : r.Cheapest source settled')
    (hpending : ∀ a q, settled'[a]? = some q → settled[a]? = some q ∨ ∀ hop, pending a hop) :
    Relaxing r source pending ⟨offers, settled', remaining', rest⟩ := by
  obtain ⟨hordered, -, -⟩ := Heap.pop?_spec Offer.isOrder h.ordered hpop
  have hmem {x : Offer Rat} : x ∈ queue.items ↔ x = o ∨ x ∈ rest.items :=
    Heap.mem_of_pop? Offer.isOrder h.ordered hpop
  have hcovers {c : Chip} {p : Rat}
      (hc : Relaxation.Covers ⟨offers, settled, remaining, queue⟩ c p) :
      Relaxation.Covers ⟨offers, settled', remaining', rest⟩ c p := by
    refine hc.mono le_rfl hkept fun x hx => (hmem.1 hx).imp_left ?_
    rintro rfl
    exact ho
  refine ⟨hordered, fun x hx => h.paid x (hmem.2 (.inr hx)), fun hq => hcovers (h.known hq),
    hcheapest, hcovers h.begun, fun {a b d q w} hq hlink hcost => ?_⟩
  rcases hpending a q hq with hold | hall
  · exact .inr (hcovers ((h.passed hold hlink hcost).resolve_left id))
  · exact .inl (hall ⟨d, b⟩)

/-- A chip is settled with the least total of all paths to it. The offer given up is the total of a
path, and any path to a chip not settled costs as much at least (`le_of_pop?`). For the same reason
what costs less is settled already. -/
theorem cheapest_insert (h : Relaxing r source (fun _ _ => False) s) (hnonneg : r.CostsAtLeast 0)
    (hpop : s.queue.pop? Offer.atMost = some (o, rest)) (hnew : o.chip ∉ s.settled) :
    r.Cheapest source (s.settled.insert o.chip o.cost) := by
  have hpaid : o.cost ∈ r.totals source o.chip :=
    h.paid o ((Heap.mem_of_pop? Offer.isOrder h.ordered hpop).2 (.inl rfl))
  have hcases {c : Chip} {q : Rat} (hq : (s.settled.insert o.chip o.cost)[c]? = some q) :
      c = o.chip ∧ q = o.cost ∨ s.settled[c]? = some q := by
    rw [Std.ExtTreeMap.getElem?_insert] at hq
    split at hq
    · next heq => exact .inl ⟨(Std.LawfulEqOrd.eq_of_compare heq).symm, (Option.some.inj hq).symm⟩
    · exact .inr hq
  constructor
  · intro c q hq
    rcases hcases hq with ⟨rfl, rfl⟩ | hold
    · exact ⟨hpaid, fun p hp => h.le_of_pop? hnonneg hpop hp hnew⟩
    · exact h.cheapest.least hold
  · intro a c p q hq hp hlt
    rw [Std.ExtTreeMap.mem_insert]
    right
    rcases hcases hq with ⟨rfl, rfl⟩ | hold
    · by_contra ha
      exact absurd hlt (h.le_of_pop? hnonneg hpop hp ha).not_gt
    · exact h.cheapest.nearer hold hp hlt

/-- Settling the chip of the smallest offer. Taking the offer leaves the hops away from its chip
pending, and the offers over them take these off one by one. -/
theorem settle (h : Relaxing r source (fun _ _ => False) ⟨offers, settled, remaining, queue⟩)
    (hnonneg : r.CostsAtLeast 0) (hpop : queue.pop? Offer.atMost = some (o, rest))
    (hnew : o.chip ∉ settled) : Relaxing r source (fun _ _ => False)
      (r.settle ⟨offers, settled, remaining, rest⟩ o) := by
  have hcheapest := h.cheapest_insert hnonneg hpop hnew
  have htaken : Relaxing r source (fun a _ => a = o.chip)
      ⟨offers, settled.insert o.chip o.cost, remaining.erase o.chip, rest⟩ := by
    refine h.take hpop (fun c hc => Std.ExtTreeMap.mem_insert.2 (.inr hc))
      Std.ExtTreeMap.mem_insert_self hcheapest fun a q hq => ?_
    rw [Std.ExtTreeMap.getElem?_insert] at hq
    split at hq
    · next heq => exact .inr fun _ => (Std.LawfulEqOrd.eq_of_compare heq).symm
    · exact .inl hq
  refine (htaken.narrow ?_).foldl_offer Std.ExtTreeMap.getElem?_insert_self fun hop hhop =>
    Fabric.mem_liveLinks.1 hhop
  rintro a hop hlink rfl
  exact ⟨rfl, Fabric.mem_liveLinks.2 hlink⟩

end Relaxing

end

/-! ### A whole relaxation -/

/-- A bound on the offers still to be taken from the heap: those that are on it, and six for every
chip not settled. -/
def Relaxation.turns (s : Relaxation Rat) (m : Machine Rat) : Nat :=
  s.queue.items.size + 6 * (m.size - s.settled.size)

/-- There are no more settled chips than chips. Settled chips have paths from the source, so they
are on the grid. -/
theorem Cheapest.size_le (h : r.Cheapest source costs) (hsource : r.machine.isChip source = true) :
    costs.size ≤ r.machine.size := by
  rw [← Std.ExtTreeMap.length_keys, ← Grid.length_cells]
  refine (Std.ExtTreeMap.nodup_keys.subperm fun c hc => ?_).length_le
  obtain ⟨q, hq⟩ := mem_iff_exists_cost.1 (Std.ExtTreeMap.mem_keys.1 hc)
  obtain ⟨hops, hleads⟩ := (h.least hq).1
  exact Grid.mem_cells.2 (Fabric.contains_of_isChip (hleads.isChip hsource))

/-- The smallest destination to which no path leads. -/
structure FirstCutOff (r : CostRouter Rat) (source : Chip) (destinations : List Chip) (c : Chip) :
    Prop where
  destination : c ∈ destinations
  cutOff : r.totals source c = ∅
  first : ∀ b ∈ destinations, r.totals source b = ∅ → (compare c b).isLE = true

/-- What a relaxation may answer: the least totals, of all destinations among others, or the
smallest destination to which no path leads. -/
def Settles (r : CostRouter Rat) (source : Chip) (destinations : List Chip) :
    Except RouteError (Std.ExtTreeMap Chip Rat) → Prop
  | .ok costs => r.Cheapest source costs ∧ ∀ c ∈ destinations, c ∈ costs
  | .error e => ∃ c, r.FirstCutOff source destinations c ∧ e = .noLivePath source c

/-- To a chip with a cost recorded some path leads, the one whose total the cost is. -/
theorem Cheapest.totals_ne_empty (h : r.Cheapest source costs) (hc : c ∈ costs) :
    r.totals source c ≠ ∅ := by
  obtain ⟨q, hq⟩ := mem_iff_exists_cost.1 hc
  exact Set.Nonempty.ne_empty ⟨q, (h.least hq).1⟩

/-- When no offer waits, no path leads to the destinations that remain. A path to a chip that
remains would have an offer waiting for it. -/
theorem Relaxing.settles_outcome (h : Relaxing r source (fun _ _ => False) s)
    (hnonneg : r.CostsAtLeast 0)
    (hremaining : ∀ c, c ∈ s.remaining ↔ c ∈ destinations ∧ c ∉ s.settled)
    (hqueue : s.queue.items = #[]) : r.Settles source destinations (outcome source s) := by
  have hcutOff {c : Chip} (hc : c ∉ s.settled) : r.totals source c = ∅ := by
    refine Set.eq_empty_of_forall_notMem fun p hp => ?_
    obtain ⟨o, ho, -⟩ := h.exists_waiting hnonneg hp hc
    rw [hqueue] at ho
    exact Array.not_mem_empty _ ho
  have hordered := s.remaining.ordered_toList
  have hmem (c : Chip) : c ∈ s.remaining.toList ↔ c ∈ destinations ∧ c ∉ s.settled := by
    rw [Std.ExtTreeSet.mem_toList, hremaining]
  unfold outcome
  split
  · next hnil =>
    refine ⟨h.cheapest, fun c hc => ?_⟩
    by_contra hsettled
    have hin := (hmem c).2 ⟨hc, hsettled⟩
    rw [hnil] at hin
    exact List.not_mem_nil hin
  · next smallest others hcons =>
    rw [hcons] at hordered hmem
    obtain ⟨hdestination, hnew⟩ := (hmem smallest).1 (List.mem_cons_self ..)
    refine ⟨smallest, ⟨hdestination, hcutOff hnew, fun b hb hempty => ?_⟩, rfl⟩
    have hin := (hmem b).2 ⟨hb, fun hsettled => h.cheapest.totals_ne_empty hsettled hempty⟩
    rcases List.mem_cons.1 hin with rfl | hin
    · exact Std.ReflCmp.isLE_rfl
    · rw [List.rel_of_pairwise_cons hordered hin]
      rfl

/-- Settling a chip records its cost, takes it off the destinations that remain and makes the heap
longer by six at most. The bound on the turns of a relaxation is counted from this. -/
theorem settle_frame (r : CostRouter Rat) (s : Relaxation Rat) (o : Offer Rat) :
    (r.settle s o).settled = s.settled.insert o.chip o.cost ∧
      (r.settle s o).remaining = s.remaining.erase o.chip ∧
      (r.settle s o).queue.items.size ≤ s.queue.items.size + 6 := by
  obtain ⟨hsettled, hremaining, hsize⟩ := foldl_offer_frame r o (r.machine.liveLinks o.chip)
    { s with settled := s.settled.insert o.chip o.cost, remaining := s.remaining.erase o.chip }
  exact ⟨hsettled, hremaining,
    hsize.trans (Nat.add_le_add_left (length_liveLinks_le r.machine.toFabric o.chip) _)⟩

/-- Settling a chip takes six from the bound, and makes no more offers than that. This is why a
bound of six offers for each chip is enough. -/
theorem turns_settle_le {m : Machine Rat} (hnew : o.chip ∉ s.settled)
    (hsize : (r.settle s o).settled.size ≤ m.size) : (r.settle s o).turns m ≤ s.turns m := by
  obtain ⟨hsettled, -, hqueue⟩ := settle_frame r s o
  rw [Std.ExtTreeMap.mem_iff_contains] at hnew
  rw [hsettled, Std.ExtTreeMap.size_insert, if_neg hnew] at hsize
  rw [Relaxation.turns, Relaxation.turns, hsettled, Std.ExtTreeMap.size_insert, if_neg hnew]
  omega

/-- With enough turns a relaxation answers as it should. By induction on the turns left. An offer
for a chip that is settled already is taken and dropped, any other settles its chip, and both take
at least one from the bound. -/
theorem Relaxing.settles_relaxFrom {bound : Nat} (h : Relaxing r source (fun _ _ => False) s)
    (hnonneg : r.CostsAtLeast 0) (hsource : r.machine.isChip source = true)
    (hremaining : ∀ c, c ∈ s.remaining ↔ c ∈ destinations ∧ c ∉ s.settled)
    (hbound : s.turns r.machine ≤ bound) :
    r.Settles source destinations (r.relaxFrom source bound s) := by
  induction bound generalizing s with
  | zero =>
      -- No turn is left only when no offer waits.
      refine h.settles_outcome hnonneg hremaining (Array.size_eq_zero_iff.1 ?_)
      unfold Relaxation.turns at hbound
      omega
  | succ bound ih =>
      obtain ⟨offers, settled, remaining, queue⟩ := s
      rw [relaxFrom]
      split
      · next hdone =>
        refine ⟨h.cheapest, fun c hc => ?_⟩
        by_contra hsettled
        have hin := (hremaining c).2 ⟨hc, hsettled⟩
        rw [show remaining = ∅ from Std.ExtTreeSet.isEmpty_iff.1 hdone] at hin
        exact Std.ExtTreeSet.not_mem_empty hin
      · split
        · next hnone => exact h.settles_outcome hnonneg hremaining (Heap.pop?_eq_none.1 hnone)
        · next o rest hpop =>
          have hsize : queue.items.size = rest.items.size + 1 :=
            Heap.size_of_pop? Offer.isOrder h.ordered hpop
          have hturns : Relaxation.turns ⟨offers, settled, remaining, rest⟩ r.machine ≤ bound := by
            simp only [Relaxation.turns] at hbound ⊢
            omega
          split
          · next hstale =>
            refine ih (h.take hpop (fun _ => id) ?_ h.cheapest fun _ _ => .inl) hremaining hturns
            exact Std.ExtTreeMap.mem_iff_contains.2 hstale
          · next hfresh =>
            have hnew : o.chip ∉ settled := mt Std.ExtTreeMap.mem_iff_contains.1 hfresh
            have hsettle := h.settle hnonneg hpop hnew
            have hle := hsettle.cheapest.size_le hsource
            obtain ⟨hsettled, herased, -⟩ := settle_frame r ⟨offers, settled, remaining, rest⟩ o
            refine ih hsettle (fun c => ?_) ((turns_settle_le hnew hle).trans hturns)
            rw [herased, hsettled, Std.ExtTreeSet.mem_erase, Std.ExtTreeMap.mem_insert,
              hremaining, not_or]
            exact and_left_comm

/-- The state a relaxation begins with: an offer of nothing to the source. The source is taken care
of by the one offer on the heap, and nothing is settled that anything would have to be known of. -/
theorem relaxing_start (r : CostRouter Rat) (source : Chip) (remaining : Std.ExtTreeSet Chip) :
    Relaxing r source (fun _ _ => False)
      { offers := (∅ : Std.ExtTreeMap Chip Rat).insert source 0
        settled := ∅
        remaining
        queue := Heap.empty.push Offer.atMost ⟨source, 0⟩ } := by
  have hmem (o : Offer Rat) :
      o ∈ ((Heap.empty : Heap (Offer Rat)).push Offer.atMost ⟨source, 0⟩).items ↔
        o = ⟨source, 0⟩ := by
    simp [Heap.mem_push, Heap.empty]
  have hcovers : Relaxation.Covers
      { offers := (∅ : Std.ExtTreeMap Chip Rat).insert source 0
        settled := ∅
        remaining
        queue := Heap.empty.push Offer.atMost ⟨source, 0⟩ } source 0 :=
    .inr ⟨⟨source, 0⟩, (hmem _).2 rfl, rfl, le_rfl⟩
  refine ⟨Heap.ordered_push Offer.isOrder Heap.ordered_empty _, ?_, ?_, ⟨?_, ?_⟩, hcovers, ?_⟩
  · intro o ho
    rw [(hmem o).1 ho]
    exact r.zero_mem_totals source
  · intro c q hq
    rw [Std.ExtTreeMap.getElem?_insert] at hq
    split at hq
    · next heq =>
      obtain rfl := Std.LawfulEqOrd.eq_of_compare heq
      obtain rfl := Option.some.inj hq
      exact hcovers
    · simp at hq
  all_goals simp

/-- A relaxation from a working chip answers as it should. -/
theorem settles_relax (hnonneg : r.CostsAtLeast 0) (hsource : r.machine.isChip source = true)
    (destinations : List Chip) : r.Settles source destinations (r.relax source destinations) := by
  refine (relaxing_start r source _).settles_relaxFrom hnonneg hsource (fun c => ?_) ?_
  · simp
  · rw [Relaxation.turns, Heap.size_push, Std.ExtTreeMap.size_empty]
    show 0 + 1 + 6 * (r.machine.size - 0) ≤ 6 * r.machine.size + 2
    omega

/-- Whatever was committed, no hop costs less than the coefficient for hops, because pressures only
add to it. -/
theorem Committed.costsAtLeast {m : Machine Rat} {weights : Weights Rat}
    (h : Committed m weights r) : r.CostsAtLeast weights.k := by
  intro a d c w hlink hcost
  rw [h.terms.2.1] at hlink
  obtain ⟨ha, hc⟩ := Fabric.isChip_of_follow? hlink
  exact h.le_linkCost ha hc hcost

/-- So no hop has a negative cost, and a settled chip cannot be reached more cheaply later. -/
theorem Committed.costs_nonneg {m : Machine Rat} {weights : Weights Rat}
    (h : Committed m weights r) : r.CostsAtLeast 0 :=
  h.costsAtLeast.mono (Weights.fault?_rat.1 h.terms.1).1.le

/-- Read exactly: whatever was committed, each link between working chips that can be crossed costs
at least `k`; a relaxation fails just when no path leads to some destination, and names the
smallest such one; and otherwise it gives costs for all destinations, each of them the least total
of the paths to its chip. That both chips of a link work is no restriction on the costs the router
asks for: a relaxation and a retrace ask only for those of working links, whose ends work
(`Fabric.isChip_of_follow?`). -/
theorem relax_exact {m : Machine Rat} {weights : Weights Rat} (h : Committed m weights r)
    (hsource : m.isChip source = true) (destinations : List Chip) :
    (∀ a d c w, m.isChip a = true → m.isChip c = true → r.linkCost a d c = some w →
      weights.k ≤ w) ∧
    ((r.relax source destinations).isOk = false ↔ ∃ c ∈ destinations, r.totals source c = ∅) ∧
    (∀ e, r.relax source destinations = .error e → ∃ c ∈ destinations,
      e = .noLivePath source c ∧ r.totals source c = ∅ ∧
        ∀ b ∈ destinations, r.totals source b = ∅ → (compare c b).isLE = true) ∧
    ∀ costs, r.relax source destinations = .ok costs →
      (∀ c ∈ destinations, c ∈ costs) ∧
        ∀ (c : Chip) q, costs[c]? = some q → IsLeast (r.totals source c) q := by
  rw [← h.terms.2.1] at hsource
  have hsettles := settles_relax h.costs_nonneg hsource destinations
  rw [← h.terms.2.1]
  refine ⟨fun a d c w ha hc => h.le_linkCost (h.terms.2.1 ▸ ha) (h.terms.2.1 ▸ hc), ?_, ?_, ?_⟩
  · cases hrelax : r.relax source destinations with
    | error e =>
        obtain ⟨c, hc, -⟩ := hrelax ▸ hsettles
        exact iff_of_true rfl ⟨c, hc.destination, hc.cutOff⟩
    | ok costs =>
        obtain ⟨hcheapest, hall⟩ := hrelax ▸ hsettles
        refine iff_of_false (by simp [Except.isOk, Except.toBool]) ?_
        rintro ⟨c, hc, hempty⟩
        exact hcheapest.totals_ne_empty (hall c hc) hempty
  · intro e he
    obtain ⟨c, hc, rfl⟩ := he ▸ hsettles
    exact ⟨c, hc.destination, rfl, hc.cutOff, hc.first⟩
  · intro costs hcosts
    obtain ⟨hcheapest, hall⟩ := hcosts ▸ hsettles
    exact ⟨hall, fun c q hq => hcheapest.least hq⟩

/-- A mesh whose middle chip below can hold one entry, all others two. -/
def narrowPass : Machine Rat :=
  { toFabric := .intact { width := 3, height := 2, wraps := false }
    entries := fun c => if c = ⟨1, 0⟩ then 1 else 2
    bandwidth := fun _ _ => 2 }

/-- The pass with one tree over it, which has filled the middle chip. -/
def blockedPass : CostRouter Rat :=
  let middle := (RouteTree.single ⟨0, 0⟩).addChild 0 (some (.link .east)) ⟨1, 0⟩
  commit ⟨narrowPass, ⟨1, 1, 1, 1⟩, ∅, ∅, 2, 2⟩ (middle.addChild 1 (some (.link .east)) ⟨2, 0⟩)

/-- The blocked pass is a router its machine can have come to, by the commit of one tree. -/
theorem committed_blockedPass : Committed narrowPass ⟨1, 1, 1, 1⟩ blockedPass :=
  .commit (.created (create_of_most (n := 2) (by decide +kernel) (by decide +kernel)
    (by decide +kernel))) _

/-- A path leads round the chip that is full, at the least total there is; to that chip itself no
path leads, and the error names it. -/
theorem blockedPass_relaxed :
    (∃ costs, blockedPass.relax ⟨0, 0⟩ [⟨2, 0⟩] = .ok costs ∧
      ∃ q, costs[(⟨2, 0⟩ : Chip)]? = some q ∧ IsLeast (blockedPass.totals ⟨0, 0⟩ ⟨2, 0⟩) q) ∧
    blockedPass.relax ⟨0, 0⟩ [⟨2, 0⟩, ⟨1, 0⟩] = .error (.noLivePath ⟨0, 0⟩ ⟨1, 0⟩) := by
  have hsource : narrowPass.isChip ⟨0, 0⟩ = true := by decide
  obtain ⟨costs, hcosts⟩ := exists_of_isOk
    (show (blockedPass.relax ⟨0, 0⟩ [⟨2, 0⟩]).isOk = true by decide +kernel)
  obtain ⟨-, -, -, hok⟩ := relax_exact committed_blockedPass hsource [⟨2, 0⟩]
  obtain ⟨hall, hleast⟩ := hok costs hcosts
  obtain ⟨q, hq⟩ := mem_iff_exists_cost.1 (hall _ (List.mem_singleton_self _))
  refine ⟨⟨costs, hcosts, q, hq, hleast _ q hq⟩, ?_⟩
  obtain ⟨e, he⟩ : ∃ e, blockedPass.relax ⟨0, 0⟩ [⟨2, 0⟩, ⟨1, 0⟩] = .error e := by
    have hfails : (blockedPass.relax ⟨0, 0⟩ [⟨2, 0⟩, ⟨1, 0⟩]).isOk = false := by decide +kernel
    cases h : blockedPass.relax ⟨0, 0⟩ [⟨2, 0⟩, ⟨1, 0⟩] with
    | error e => exact ⟨e, rfl⟩
    | ok others => rw [h] at hfails; cases hfails
  -- A path leads to the corner, so the chip cut off is the one in the middle.
  obtain ⟨-, -, herror, -⟩ := relax_exact committed_blockedPass hsource [⟨2, 0⟩, ⟨1, 0⟩]
  obtain ⟨c, hc, rfl, hempty, -⟩ := herror e he
  rcases List.mem_pair.1 hc with rfl | rfl
  · exact absurd (hempty ▸ (hleast _ q hq).1) (Set.notMem_empty q)
  · exact he

end Multicast.CostRouter
