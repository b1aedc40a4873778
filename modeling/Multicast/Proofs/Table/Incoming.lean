import Mathlib.Algebra.Group.Nat.Even
import Mathlib.Data.List.Duplicate
import Mathlib.Data.List.ReduceOption
import Multicast.Proofs.Table.Merge

/-!
# `Multicast.Proofs.Table.Incoming`: ways in and the order they are told

Two sources that name different ways in leave none, and then the next source is believed again.
So the last word may depend on the order: of two that agree and a third, the third clears what
is known if it comes last, and is forgotten if it comes between them. `settled_iff` says when
no order makes a difference: the sources all name the same way in, or they all name different
ones and pair off.
-/

set_option autoImplicit false

namespace Multicast.Entry

variable {α : Type} [DecidableEq α] {l l' : List α} {a b : α}

/-- What is known of a way in after sources have named theirs. -/
def tally (known : Option α) (named : List α) : Option α :=
  named.foldl (fun known a => mergeIncoming known (some a)) known

/-- Sources that name the same way in, or an even number that all name different ones. -/
def Settled (named : List α) : Prop :=
  (∀ a ∈ named, ∀ b ∈ named, a = b) ∨ named.Nodup ∧ Even named.length

instance (named : List α) : Decidable (Settled named) :=
  inferInstanceAs (Decidable (_ ∨ _))

/-- Two sources settle it whatever they name. -/
theorem settled_of_length_le : ∀ {l : List α}, l.length ≤ 2 → Settled l
  | [], _ => .inl (by simp)
  | [_], _ => .inl (by simp)
  | [a, b], _ => by
      by_cases hab : a = b
      · exact .inl (by simp [hab])
      · exact .inr ⟨by simpa using hab, 1, rfl⟩
  | _ :: _ :: _ :: _, h => absurd h (by simp)

/-- Without sources nothing changes. -/
@[simp] theorem tally_nil (known : Option α) : tally known [] = known := rfl

/-- The first source is merged before the rest. -/
@[simp] theorem tally_cons (known : Option α) (a : α) (l : List α) :
    tally known (a :: l) = tally (mergeIncoming known (some a)) l := rfl

/-- Sources can be counted in two parts. -/
theorem tally_append (known : Option α) (l l' : List α) :
    tally known (l ++ l') = tally (tally known l) l' := List.foldl_append

/-- Sources that name no way in do not count. -/
theorem mergeAll_eq_tally (l : List (Option α)) : mergeAll l = tally none l.reduceOption := by
  suffices h : ∀ known, l.foldl mergeIncoming known = tally known l.reduceOption from h none
  induction l with
  | nil => exact fun _ => rfl
  | cons first rest ih =>
      intro known
      cases first with
      | none => rw [List.foldl_cons, mergeIncoming_none_right, List.reduceOption_cons_of_none, ih]
      | some a => rw [List.foldl_cons, List.reduceOption_cons_of_some, tally_cons, ih]

/-- Two sources that disagree clear what is known. A third one is then taken at its word. -/
theorem mergeIncoming_of_ne (h : a ≠ b) : mergeIncoming (some a) (some b) = none := if_neg h

/-- Different ways in clear each other two by two. -/
theorem tally_of_even : ∀ {l : List α}, l.Nodup → Even l.length → tally none l = none
  | [], _, _ => rfl
  | [_], _, heven => absurd heven (by simp)
  | a :: b :: rest, hnodup, heven => by
      obtain ⟨ha, hrest⟩ := List.nodup_cons.1 hnodup
      have hab : a ≠ b := List.ne_of_not_mem_cons ha
      rw [tally_cons, tally_cons, mergeIncoming_none_left, mergeIncoming_of_ne hab]
      refine tally_of_even (List.nodup_cons.1 hrest).2 ?_
      simpa [Nat.even_add_one] using heven

/-- After an even number of different ways in the next one is believed. -/
theorem tally_snoc_of_even (h : l.Nodup) (heven : Even l.length) :
    tally none (l ++ [a]) = some a := by
  rw [tally_append, tally_of_even h heven, tally_cons, mergeIncoming_none_left, tally_nil]

/-- A way in that comes last clears the one that two sources named before. -/
theorem tally_twice (known : Option α) (h : a ≠ b) : tally known [a, a, b] = none := by
  cases known with
  | none => simp [mergeIncoming, h]
  | some c => by_cases hc : c = a <;> simp [mergeIncoming, hc, h]

/-- A way in named by two sources is what is known in the end if the third comes before one of
them. -/
theorem tally_between (known : Option α) (h : a ≠ b) :
    tally known [a, b, a] = some a ∨ tally known [b, a, a] = some a := by
  cases known with
  | none => simp [mergeIncoming, h]
  | some c =>
      by_cases hc : c = a
      · simp [mergeIncoming, hc, h]
      · by_cases hc' : c = b <;> simp [mergeIncoming, hc, hc', h.symm]

/-- What is known in the end does not depend on the order if the sources settle it. -/
theorem Settled.tally_eq (h : Settled l) (hperm : l'.Perm l) : tally none l' = tally none l := by
  rcases h with hsame | ⟨hnodup, heven⟩
  · cases l with
    | nil => rw [List.perm_nil.1 hperm]
    | cons a rest =>
        -- A list that holds one element only has no other order.
        obtain ⟨n, hn⟩ : ∃ n, a :: rest = List.replicate n a :=
          ⟨_, List.eq_replicate_iff.2 ⟨rfl, fun b hb => hsame b hb a (List.mem_cons_self ..)⟩⟩
        rw [hn] at hperm ⊢
        rw [List.perm_replicate.1 hperm]
  · rw [tally_of_even hnodup heven,
      tally_of_even (hperm.nodup_iff.2 hnodup) (by rwa [hperm.length_eq])]

omit [DecidableEq α] in
/-- Elements of a list can be put at its end. -/
theorem exists_perm_append_of_subperm {s : List α} (h : s.Subperm l) :
    ∃ m, l.Perm (m ++ s) := by
  obtain ⟨s', hs', hsub⟩ := h
  obtain ⟨m, hm⟩ := hsub.exists_perm_append
  exact ⟨m, hm.trans (List.perm_append_comm.trans (List.Perm.append_left m hs'))⟩

/-- Of an odd number of different ways in, any may come last and be believed. -/
theorem exists_perm_of_odd (hnodup : l.Nodup) (hodd : ¬ Even l.length) (ha : a ∈ l) (hb : b ∈ l)
    (hab : a ≠ b) : ∃ u v, u.Perm l ∧ v.Perm l ∧ tally none u ≠ tally none v := by
  obtain ⟨m, hm⟩ := exists_perm_append_of_subperm (List.subperm_of_subset
    (List.nodup_cons.2 ⟨by simpa using hab, List.nodup_singleton b⟩)
    (List.cons_subset.2 ⟨ha, List.cons_subset.2 ⟨hb, List.nil_subset l⟩⟩))
  have hlast {x y : α} (hxy : l.Perm (m ++ [x, y])) : tally none (m ++ [x, y]) = some y := by
    have heven : Even (m ++ [x]).length := by
      have hlength : ¬ Even (m ++ [x, y]).length := hxy.length_eq ▸ hodd
      simpa [Nat.even_add_one] using hlength
    have hx : (m ++ [x, y]).Nodup := hxy.nodup_iff.1 hnodup
    rw [List.append_cons] at hx ⊢
    exact tally_snoc_of_even hx.of_append_left heven
  have hm' : l.Perm (m ++ [b, a]) := hm.trans ((List.Perm.swap ..).append_left m)
  refine ⟨_, _, hm.symm, hm'.symm, ?_⟩
  rw [hlast hm, hlast hm']
  exact fun heq => hab (Option.some.inj heq).symm

/-- Where two sources agree and a third does not, it matters whether the third comes last. -/
theorem exists_perm_of_twice (ha : List.Duplicate a l) (hb : b ∈ l) (hab : a ≠ b) :
    ∃ u v, u.Perm l ∧ v.Perm l ∧ tally none u ≠ tally none v := by
  have hsub : [a, a, b].Subperm l := by
    refine List.subperm_ext_iff.2 fun c hc => ?_
    obtain rfl | rfl : c = a ∨ c = b := by simpa using hc
    · simpa [hab.symm] using List.duplicate_iff_two_le_count.1 ha
    · simpa [hab] using List.count_pos_iff.2 hb
  obtain ⟨m, hm⟩ := exists_perm_append_of_subperm hsub
  have hbetween : (m ++ [a, b, a]).Perm l :=
    (List.Perm.append_left m ((List.Perm.swap ..).cons a)).trans hm.symm
  have hfirst : (m ++ [b, a, a]).Perm l :=
    (List.Perm.append_left m (List.Perm.swap ..)).trans hbetween
  have hlast : tally none (m ++ [a, a, b]) = none := by rw [tally_append, tally_twice _ hab]
  rcases tally_between (tally none m) hab with heq | heq
  · refine ⟨_, _, hm.symm, hbetween, ?_⟩
    rw [hlast, tally_append, heq]
    exact (Option.some_ne_none a).symm
  · refine ⟨_, _, hm.symm, hfirst, ?_⟩
    rw [hlast, tally_append, heq]
    exact (Option.some_ne_none a).symm

/-- What is known in the end does not depend on the order just if the sources settle it. -/
theorem settled_iff : Settled l ↔ ∀ l', l'.Perm l → tally none l' = tally none l := by
  refine ⟨fun h l' => h.tally_eq, fun h => ?_⟩
  by_contra hno
  obtain ⟨hdiffer, hodd⟩ := not_or.1 hno
  push Not at hdiffer
  obtain ⟨x, hx, y, hy, hxy⟩ := hdiffer
  obtain ⟨u, v, hu, hv, hne⟩ : ∃ u v, u.Perm l ∧ v.Perm l ∧ tally none u ≠ tally none v := by
    by_cases hnodup : l.Nodup
    · exact exists_perm_of_odd hnodup (fun heven => hodd ⟨hnodup, heven⟩) hx hy hxy
    · obtain ⟨a, ha⟩ := List.exists_duplicate_iff_not_nodup.2 hnodup
      -- One of the two that differ is not the one named twice.
      by_cases hax : a = x
      · exact exists_perm_of_twice ha hy (hax ▸ hxy)
      · exact exists_perm_of_twice ha hx hax
  exact hne ((h u hu).trans (h v hv).symm)

end Multicast.Entry

namespace Multicast.Tables

variable {t t' : Tables}

/-- Tables with the same ways out and the same ways in are the same. -/
theorem eq_of_keeps (h : t.Keeps t') (h' : t'.Keeps t)
    (hlink : ∀ slot, (t.get? slot).bind (·.incomingLink) = (t'.get? slot).bind (·.incomingLink))
    (hcore : ∀ slot, (t.get? slot).bind (·.incomingCore) = (t'.get? slot).bind (·.incomingCore)) :
    t = t' := by
  refine ext fun slot => ?_
  specialize hlink slot
  specialize hcore slot
  cases he : t.get? slot with
  | none =>
      cases he' : t'.get? slot with
      | none => rfl
      | some e' =>
          obtain ⟨e, hnone, -⟩ := h' slot e' he'
          rw [he] at hnone
          contradiction
  | some e =>
      obtain ⟨e', he', houts⟩ := h slot e he
      rw [he, he'] at hlink hcore
      rw [he']
      obtain ⟨links, cores, link, core⟩ := e
      obtain ⟨links', cores', link', core'⟩ := e'
      obtain ⟨rfl, rfl⟩ := houts
      obtain rfl : link = link' := hlink
      obtain rfl : core = core' := hcore
      rfl

end Multicast.Tables
