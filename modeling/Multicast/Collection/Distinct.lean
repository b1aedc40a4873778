import Std.Data.ExtTreeSet

/-!
# `Multicast.Collection.Distinct`: leaving out repeats

`distinct` keeps the first of each group of equal elements where it stands. The
main statements are `mem_distinct`, that no element is lost, and
`nodup_distinct`, that none is left twice.
-/

set_option autoImplicit false

namespace Multicast

variable {α : Type} [Ord α] [Std.TransOrd α]

/-- The elements kept so far, latest first, followed by those of a list that are not among
`seen`, each once. -/
def distinctAfter (seen : Std.ExtTreeSet α) (kept : List α) : List α → List α
  | [] => kept.reverse
  | a :: rest =>
    if seen.contains a then distinctAfter seen kept rest
    else distinctAfter (seen.insert a) (a :: kept) rest

/-- Keeps the first of each group of equal elements. -/
def distinct (l : List α) : List α :=
  distinctAfter ∅ [] l

variable [Std.LawfulEqOrd α]

/-- An element that is kept is noted as seen at the same time, so the set of the seen ones goes on
to hold what is kept and nothing else. -/
theorem mem_insert_seen {seen : Std.ExtTreeSet α} {kept : List α} {a : α}
    (h : ∀ b, b ∈ seen ↔ b ∈ kept) (b : α) : b ∈ seen.insert a ↔ b ∈ a :: kept := by
  rw [Std.ExtTreeSet.mem_insert, Std.LawfulEqOrd.compare_eq_iff_eq, h, List.mem_cons]
  exact or_congr_left eq_comm

/-- What is kept in the end is what was kept before and whatever comes in the rest of the list: an
element is dropped only when an equal one is kept. -/
theorem mem_distinctAfter {seen : Std.ExtTreeSet α} {kept : List α} {b : α}
    (h : ∀ b, b ∈ seen ↔ b ∈ kept) (l : List α) :
    b ∈ distinctAfter seen kept l ↔ b ∈ kept ∨ b ∈ l := by
  induction l generalizing seen kept with
  | nil => simp [distinctAfter]
  | cons a rest ih =>
    unfold distinctAfter
    split
    · next ha =>
      have ha := (h a).1 (Std.ExtTreeSet.mem_iff_contains.2 ha)
      rw [ih h, List.mem_cons]
      exact ⟨fun hb => hb.imp_right .inr, fun hb => hb.elim .inl fun hb =>
        hb.elim (fun hb => .inl (hb ▸ ha)) .inr⟩
    · rw [ih (mem_insert_seen h), List.mem_cons, List.mem_cons, @or_comm (b = a), or_assoc]

/-- No element is lost and none is new. -/
theorem mem_distinct {b : α} {l : List α} : b ∈ distinct l ↔ b ∈ l := by
  rw [distinct, mem_distinctAfter (fun b => by simp)]
  simp

/-- Nothing is kept twice, because an element is kept only when it is not among the seen ones, which
are those kept so far. -/
theorem nodup_distinctAfter {seen : Std.ExtTreeSet α} {kept : List α}
    (h : ∀ b, b ∈ seen ↔ b ∈ kept) (hk : kept.Nodup) (l : List α) :
    (distinctAfter seen kept l).Nodup := by
  induction l generalizing seen kept with
  | nil => exact List.pairwise_reverse.2 (hk.imp Ne.symm)
  | cons a rest ih =>
    unfold distinctAfter
    split
    · exact ih h hk
    · next ha =>
      exact ih (mem_insert_seen h)
        (List.nodup_cons.2 ⟨fun hm => ha (Std.ExtTreeSet.mem_iff_contains.1 ((h a).2 hm)), hk⟩)

/-- No element is left twice. -/
theorem nodup_distinct (l : List α) : (distinct l).Nodup :=
  nodup_distinctAfter (fun b => by simp) List.nodup_nil l

end Multicast
