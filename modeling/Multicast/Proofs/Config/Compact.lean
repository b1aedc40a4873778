import Mathlib.Algebra.Ring.Nat
import Mathlib.Data.List.Forall2
import Mathlib.Data.List.TakeWhile
import Multicast.Config.Reader

/-!
# `Multicast.Proofs.Config.Compact`: the compact form of overrides

What a text has to look like to be read is said without reference to a reader: a numeral
is a plus sign or none and then digits (`Override.Numeral`), a number is a numeral with
white space around it, a group is numbers joined by commas, and a text is groups and blank
parts joined by colons (`Override.Writes`). The reader accepts just these texts and gives
what they write (`Override.ofText_eq_ok`), and so does the list form of the groups.

Trimming a group before it is split at commas changes nothing, since the numbers are trimmed
again (`Override.map_trim_splitOn_trim`).
-/

set_option autoImplicit false

namespace Multicast

/-! ### White space -/

/-- A text of white space only. -/
def Blank (s : List Char) : Prop := ∀ c ∈ s, isBlank c = true

/-- Nothing is left from the start of a text just when all of it is white space. -/
theorem trimStart_eq_nil {s : List Char} : trimStart s = [] ↔ Blank s :=
  List.dropWhile_eq_nil_iff

/-- What is trimmed off is white space. -/
theorem exists_eq_append_trim (s : List Char) :
    ∃ before after, Blank before ∧ Blank after ∧ s = before ++ (trim s ++ after) := by
  refine ⟨s.takeWhile isBlank, ((trimStart s).reverse.takeWhile isBlank).reverse, ?_, ?_, ?_⟩
  · intro c hc
    exact List.mem_takeWhile_imp hc
  · intro c hc
    exact List.mem_takeWhile_imp (List.mem_reverse.1 hc)
  · have hend : trim s ++ ((trimStart s).reverse.takeWhile isBlank).reverse = trimStart s := by
      have hsplit : (trimStart s).reverse.takeWhile isBlank ++ trimStart (trimStart s).reverse =
          (trimStart s).reverse := List.takeWhile_append_dropWhile
      rw [trim, ← List.reverse_append]
      exact (congrArg List.reverse hsplit).trans (List.reverse_reverse _)
    rw [hend]
    exact List.takeWhile_append_dropWhile.symm

/-- Only of white space nothing is left by trimming. The reader drops such parts between colons. -/
theorem trim_eq_nil {s : List Char} : trim s = [] ↔ Blank s := by
  constructor
  · intro h
    obtain ⟨before, after, hbefore, hafter, hs⟩ := exists_eq_append_trim s
    rw [h] at hs
    intro c hc
    rw [hs] at hc
    exact (List.mem_append.1 hc).elim (hbefore c) (hafter c)
  · intro h
    rw [trim, trimStart_eq_nil.2 h]
    rfl

/-- White space in front of a text makes no difference once it is trimmed. -/
theorem trim_append_left {b : List Char} (hb : Blank b) (s : List Char) :
    trim (b ++ s) = trim s := by
  have hstart : trimStart (b ++ s) = trimStart s := List.dropWhile_append_of_pos hb
  rw [trim, trim, hstart]

/-- White space behind a text makes no difference once it is trimmed. The text may be white space
itself, so the end that is trimmed has to be found in either part. -/
theorem trim_append_right {b : List Char} (hb : Blank b) (s : List Char) :
    trim (s ++ b) = trim s := by
  by_cases hs : Blank s
  · have hsb : Blank (s ++ b) := by
      intro c hc
      exact (List.mem_append.1 hc).elim (hs c) (hb c)
    rw [trim_eq_nil.2 hs, trim_eq_nil.2 hsb]
  · have hstart : trimStart (s ++ b) = trimStart s ++ b := by
      have hne : (List.dropWhile isBlank s).isEmpty = false := by
        rw [List.isEmpty_eq_false_iff]
        exact fun h => hs (trimStart_eq_nil.1 h)
      rw [trimStart, List.dropWhile_append, hne]
      rfl
    have hreverse : Blank b.reverse := fun c hc => hb c (List.mem_reverse.1 hc)
    rw [trim, hstart, List.reverse_append]
    exact congrArg List.reverse (List.dropWhile_append_of_pos hreverse)

/-- A text without white space is left as it is. -/
theorem trim_eq_self {s : List Char} (h : ∀ c ∈ s, isBlank c = false) : trim s = s := by
  have hkeep : ∀ t : List Char, (∀ c ∈ t, isBlank c = false) → trimStart t = t := by
    intro t ht
    cases t with
    | nil => rfl
    | cons c rest => exact List.dropWhile_cons_of_neg (by simp [ht c (List.mem_cons_self ..)])
  rw [trim, hkeep s h, hkeep s.reverse fun c hc => h c (List.mem_reverse.1 hc),
    List.reverse_reverse]

namespace Override

/-! ### Separators -/

/-- The splitting of the reader is the splitting of the library, whose lemmas are about joining the
parts again. -/
theorem split_eq_splitOn (separator : Char) (s : List Char) :
    split separator s = s.splitOn separator := by
  induction s with
  | nil => rfl
  | cons c rest ih =>
      rw [split, List.splitOn_cons_eq_if_modifyHead, ih]
      by_cases hc : c = separator
      · rw [if_pos hc, if_pos (beq_iff_eq.2 hc)]
      · rw [if_neg hc, if_neg (by simpa using hc)]
        cases h : rest.splitOn separator with
        | nil => exact absurd h (List.splitOn_ne_nil _ _)
        | cons first others => rfl

section Separators

variable {separator : Char} {b : List Char}

/-- What is put in front of a text and holds no separator becomes part of its first piece. This is
what makes white space in front harmless when it is not the separator. -/
theorem splitOn_append_left (hb : separator ∉ b) (s : List Char) :
    (b ++ s).splitOn separator = (s.splitOn separator).modifyHead (b ++ ·) := by
  induction b with
  | nil => exact (congrFun List.modifyHead_id _).symm
  | cons c b ih =>
      obtain ⟨hc, hb⟩ := not_or.1 (fun h => hb (List.mem_cons.2 h))
      rw [List.cons_append, List.splitOn_cons_eq_if_modifyHead,
        if_neg (by simpa using Ne.symm hc), ih hb, List.modifyHead_modifyHead]
      rfl

/-- What is put behind a text and holds no separator becomes part of its last piece, and the pieces
before that stay. -/
theorem splitOn_append_right (hb : separator ∉ b) (s : List Char) : ∃ init last,
    s.splitOn separator = init ++ [last] ∧ (s ++ b).splitOn separator = init ++ [last ++ b] := by
  induction s with
  | nil => exact ⟨[], [], List.splitOn_nil _, List.splitOn_eq_singleton hb⟩
  | cons c s ih =>
      obtain ⟨init, last, hs, hsb⟩ := ih
      rw [List.cons_append, List.splitOn_cons_eq_if_modifyHead, List.splitOn_cons_eq_if_modifyHead,
        hs, hsb]
      split
      · exact ⟨[] :: init, last, rfl, rfl⟩
      · cases init with
        | nil => exact ⟨[], c :: last, rfl, rfl⟩
        | cons first init => exact ⟨(c :: first) :: init, last, rfl, rfl⟩

end Separators

/-- White space at the ends of a text goes to its first and its last part, and is trimmed off
there. -/
theorem map_trim_splitOn_trim {separator : Char} (h : isBlank separator = false) (s : List Char) :
    ((trim s).splitOn separator).map trim = (s.splitOn separator).map trim := by
  obtain ⟨before, after, hbefore, hafter, hs⟩ := exists_eq_append_trim s
  have hnot : ∀ {b : List Char}, Blank b → separator ∉ b := by
    intro b hb hmem
    rw [hb _ hmem] at h
    contradiction
  have hleft : ∀ t : List Char,
      ((before ++ t).splitOn separator).map trim = (t.splitOn separator).map trim := by
    intro t
    rw [splitOn_append_left (hnot hbefore)]
    cases t.splitOn separator with
    | nil => rfl
    | cons first others => exact congrArg (· :: _) (trim_append_left hbefore first)
  obtain ⟨init, last, hinit, hlast⟩ := splitOn_append_right (hnot hafter) (trim s)
  conv_rhs => rw [hs]
  rw [hleft, hlast, hinit, List.map_append, List.map_append]
  exact congrArg (_ ++ [·]) (trim_append_right hafter last).symm

/-! ### What a text writes -/

/-- A text that writes a number: a plus sign or none, then digits. -/
def Numeral (n : Nat) (s : List Char) : Prop :=
  ∃ sign digits, (sign = [] ∨ sign = ['+']) ∧ digits ≠ [] ∧ (∀ c ∈ digits, c.isDigit = true) ∧
    Nat.ofDigitChars 10 digits 0 = n ∧ n < 2 ^ 32 ∧ s = sign ++ digits

/-- A number with white space around it. -/
def WritesNumber (n : Nat) (s : List Char) : Prop :=
  ∃ before numeral after, Blank before ∧ Blank after ∧ Numeral n numeral ∧
    s = before ++ (numeral ++ after)

/-- A text of items with separators between them. -/
inductive Joined {β : Type} (separator : Char) (item : β → List Char → Prop) :
    List β → List Char → Prop
  | last {b : β} {s : List Char} (h : item b s) : Joined separator item [b] s
  | more {b : β} {bs : List β} {s t : List Char} (h : item b s) (ht : Joined separator item bs t) :
      Joined separator item (b :: bs) (s ++ separator :: t)

/-- Numbers with commas between them. -/
def WritesGroup : List Nat → List Char → Prop :=
  Joined ',' WritesNumber

/-- A part of a text: white space, or a group. -/
def WritesPart : Option (List Nat) → List Char → Prop
  | none => Blank
  | some group => WritesGroup group

/-- Groups of numbers with colons between them, and any blank parts among them. -/
def Writes (groups : List (List Nat)) (s : List Char) : Prop :=
  ∃ parts, Joined ':' WritesPart parts s ∧ parts.filterMap id = groups

/-- Joined items are what is found between the separators. The items hold no separator, so the cuts
of the splitting are just the separators that the text was joined with. One direction follows how
the text is joined; the other follows the list of parts, which is never empty. -/
theorem joined_iff {β : Type} {separator : Char} {item : β → List Char → Prop}
    (hitem : ∀ b s, item b s → separator ∉ s) {bs : List β} {s : List Char} :
    Joined separator item bs s ↔ List.Forall₂ item bs (s.splitOn separator) := by
  constructor
  · intro h
    induction h with
    | last h =>
        rw [List.splitOn_eq_singleton (hitem _ _ h)]
        exact .cons h .nil
    | more h _ ih =>
        rw [List.splitOn_append_cons_self_of_not_mem (hitem _ _ h)]
        exact .cons h ih
  · intro h
    have hwhole : [separator].intercalate (s.splitOn separator) = s :=
      List.intercalate_splitOn separator
    rw [← hwhole]
    have hne := List.splitOn_ne_nil separator s
    revert h hne
    generalize s.splitOn separator = parts
    intro h hne
    induction h with
    | nil => contradiction
    | @cons b part bs parts h hrest ih =>
        cases parts with
        | nil =>
            cases hrest
            rw [List.intercalate_singleton]
            exact .last h
        | cons next parts =>
            rw [List.intercalate_cons_cons, List.append_assoc]
            exact .more h (ih (List.cons_ne_nil _ _))

/-- Every part is written for an item. -/
theorem exists_of_forall₂ {β : Type} {item : β → List Char → Prop} {bs : List β}
    {parts : List (List Char)} (h : List.Forall₂ item bs parts) {part : List Char}
    (hpart : part ∈ parts) : ∃ b ∈ bs, item b part := by
  induction h with
  | nil => contradiction
  | cons h _ ih =>
      rcases List.mem_cons.1 hpart with rfl | hpart
      · exact ⟨_, List.mem_cons_self .., h⟩
      · obtain ⟨b, hb, hitem⟩ := ih hpart
        exact ⟨b, List.mem_cons_of_mem _ hb, hitem⟩

/-! ### Numbers -/

/-- The digits are the ten characters from zero to nine, which have consecutive code points. -/
theorem isDigit_iff {c : Char} : c.isDigit = true ↔ '0' ≤ c ∧ c ≤ '9' := by
  rw [Char.isDigit, Bool.and_eq_true, decide_eq_true_eq, decide_eq_true_eq]
  rfl

/-- A digit is worth as much as it lies behind zero among the characters. -/
theorem value?_of_isDigit {c : Char} (h : c.isDigit = true) :
    Digit.value? c = some (c.toNat - '0'.toNat) :=
  if_pos (isDigit_iff.1 h)

/-- Letters are digits of larger bases only. The reader has one notion of digit for all bases. In
base ten the letters fall out because they are worth ten or more. -/
theorem isDigit_ten (c : Char) : Digit.isDigit 10 c = c.isDigit := by
  cases h : c.isDigit with
  | true =>
      have hle : c.toNat ≤ '9'.toNat := (isDigit_iff.1 h).2
      have hnine : '9'.toNat = 57 := rfl
      have hzero : '0'.toNat = 48 := rfl
      rw [Digit.isDigit, value?_of_isDigit h]
      exact decide_eq_true (by omega)
  | false =>
      have hnot : ¬ ('0' ≤ c ∧ c ≤ '9') := by
        rw [← isDigit_iff, h]
        exact Bool.false_ne_true
      have ha : 'a'.toNat = 97 := rfl
      have hA : 'A'.toNat = 65 := rfl
      rw [Digit.isDigit, Digit.value?, if_neg hnot]
      split
      · next n hn =>
        apply decide_eq_false
        split at hn
        · next hc =>
          have hle : 'a'.toNat ≤ c.toNat := hc.1
          have hvalue := Option.some.inj hn
          omega
        · obtain ⟨hc, hvalue⟩ := Option.ite_none_right_eq_some.1 hn
          have hle : 'A'.toNat ≤ c.toNat := hc.1
          have hvalue := Option.some.inj hvalue
          omega
      · rfl

/-- More digits never make a number smaller, so one that is too large stays so, and the reader may
stop where it gets too large. By induction on the digits, each of which multiplies by ten and
adds. -/
theorem le_ofDigitChars (k : Nat) (digits : List Char) : k ≤ Nat.ofDigitChars 10 digits k := by
  induction digits generalizing k with
  | nil => rw [Nat.ofDigitChars_nil]
  | cons c digits ih =>
      rw [Nat.ofDigitChars_cons]
      exact Nat.le_trans (by omega) (ih _)

/-- Digits are read one by one with a check of the number so far. They are read as a number just
when all of them are digits and the number of all is small enough: the check on the way refuses no
text that the check at the end would pass. -/
theorem readDigits_eq_ok {k n : Nat} {digits : List Char} (hk : k < numberLimit) :
    readDigits k digits = .ok n ↔ (∀ c ∈ digits, c.isDigit = true) ∧
      Nat.ofDigitChars 10 digits k = n ∧ n < numberLimit := by
  induction digits generalizing k with
  | nil =>
      rw [readDigits, Nat.ofDigitChars_nil]
      constructor
      · intro h
        obtain rfl := Except.ok.inj h
        exact ⟨fun c hc => absurd hc List.not_mem_nil, rfl, hk⟩
      · rintro ⟨-, rfl, -⟩
        rfl
  | cons c digits ih =>
      rw [readDigits, isDigit_ten, List.forall_mem_cons, Nat.ofDigitChars_cons]
      cases hc : c.isDigit with
      | false => simp
      | true =>
          have hvalue : k * 10 + (Digit.value? c).getD 0 = 10 * k + (c.toNat - '0'.toNat) := by
            rw [value?_of_isDigit hc, Nat.mul_comm]
            rfl
          simp only [if_true, hvalue, true_and]
          split
          · next hlt => exact ih hlt
          · next hge =>
            -- A number that is too large only grows with further digits.
            have hgrow := le_ofDigitChars (10 * k + (c.toNat - '0'.toNat)) digits
            constructor
            · intro h
              contradiction
            · rintro ⟨-, rfl, hlt⟩
              omega

/-- A number is read from just the numerals that write it. One plus sign is passed over, and a sign
alone or no text at all is refused. -/
theorem readNumber_eq_ok {n : Nat} {s : List Char} : readNumber s = .ok n ↔ Numeral n s := by
  have hlimit : 0 < numberLimit := by decide
  constructor
  · intro h
    unfold readNumber at h
    split at h
    · contradiction
    · contradiction
    · next rest hrest =>
      obtain ⟨hdigits, hvalue, hlt⟩ := (readDigits_eq_ok hlimit).1 h
      exact ⟨['+'], rest, .inr rfl, fun hnil => hrest (by rw [hnil]), hdigits, hvalue, hlt, rfl⟩
    · next hne _ _ =>
      obtain ⟨hdigits, hvalue, hlt⟩ := (readDigits_eq_ok hlimit).1 h
      exact ⟨[], s, .inl rfl, hne, hdigits, hvalue, hlt, rfl⟩
  · rintro ⟨sign, digits, hsign, hne, hdigits, hvalue, hlt, rfl⟩
    have hread := (readDigits_eq_ok hlimit).2 ⟨hdigits, hvalue, hlt⟩
    cases digits with
    | nil => contradiction
    | cons c rest =>
        rcases hsign with rfl | rfl
        · have hc : c ≠ '+' := by
            rintro rfl
            exact absurd (hdigits _ (List.mem_cons_self ..)) (by decide)
          show readNumber (c :: rest) = .ok n
          rw [readNumber]
          · exact hread
          · simp
          · intro h
            exact absurd (List.cons.inj h).1 hc
          · intro x h
            exact absurd (List.cons.inj h).1 hc
        · exact hread

/-- No digit is white space. Every range of white space lies before the digits or behind them. -/
theorem isBlank_of_isDigit {c : Char} (h : c.isDigit = true) : isBlank c = false := by
  have hlow : 48 ≤ c.toNat := (isDigit_iff.1 h).1
  have hhigh : c.toNat ≤ 57 := (isDigit_iff.1 h).2
  rw [isBlank, List.any_eq_false]
  intro r hr
  rw [decide_eq_true_eq]
  -- Every range of white space ends before the digits or begins behind them.
  have hrange : r.2 < 48 ∨ 57 < r.1 := by
    revert r
    decide
  omega

/-- A numeral holds no white space, so trimming takes away what surrounds it and nothing else. -/
theorem Numeral.isBlank_eq_false {n : Nat} {s : List Char} (h : Numeral n s) :
    ∀ c ∈ s, isBlank c = false := by
  obtain ⟨sign, digits, hsign, -, hdigits, -, -, rfl⟩ := h
  intro c hc
  rcases List.mem_append.1 hc with hc | hc
  · rcases hsign with rfl | rfl
    · contradiction
    · obtain rfl := List.mem_singleton.1 hc
      decide
  · exact isBlank_of_isDigit (hdigits c hc)

/-- After trimming, a number is read from just the texts that write it, with white space around it. -/
theorem readNumber_trim {n : Nat} {s : List Char} :
    readNumber (trim s) = .ok n ↔ WritesNumber n s := by
  constructor
  · intro h
    obtain ⟨before, after, hbefore, hafter, hs⟩ := exists_eq_append_trim s
    exact ⟨before, trim s, after, hbefore, hafter, readNumber_eq_ok.1 h, hs⟩
  · rintro ⟨before, numeral, after, hbefore, hafter, hnumeral, rfl⟩
    rw [trim_append_left hbefore, trim_append_right hafter,
      trim_eq_self hnumeral.isBlank_eq_false]
    exact readNumber_eq_ok.2 hnumeral

/-- The numbers of a group are read part by part, and all parts have to write one. By induction on
the parts; the first that writes none ends the reading. -/
theorem readNumbers_eq_ok {ns : List Nat} {parts : List (List Char)} :
    readNumbers parts = .ok ns ↔ List.Forall₂ WritesNumber ns parts := by
  induction parts generalizing ns with
  | nil =>
      rw [readNumbers, List.forall₂_nil_right_iff]
      exact ⟨fun h => (Except.ok.inj h).symm, fun h => by rw [h]⟩
  | cons part parts ih =>
      rw [readNumbers, List.forall₂_cons_right_iff]
      constructor
      · intro h
        obtain ⟨n, hn, h⟩ := bind_eq_ok.1 h
        obtain ⟨others, hothers, h⟩ := bind_eq_ok.1 h
        obtain rfl := Except.ok.inj h
        exact ⟨n, others, readNumber_trim.1 hn, ih.1 hothers, rfl⟩
      · rintro ⟨n, others, hn, hothers, rfl⟩
        rw [readNumber_trim.2 hn, ih.2 hothers]
        rfl

/-- Only what is left of the parts after trimming counts. So it makes no difference that the text of
a group has been trimmed before. -/
theorem readNumbers_congr {parts parts' : List (List Char)}
    (h : parts.map trim = parts'.map trim) : readNumbers parts = readNumbers parts' := by
  induction parts generalizing parts' with
  | nil =>
      obtain rfl := List.map_eq_nil_iff.1 h.symm
      rfl
  | cons part parts ih =>
      cases parts' with
      | nil => contradiction
      | cons part' parts' =>
          obtain ⟨hpart, hparts⟩ := List.cons.inj h
          rw [readNumbers, readNumbers, hpart, ih hparts]

/-! ### Groups -/

/-- The character is no part of a number. -/
theorem WritesNumber.not_mem {n : Nat} {s : List Char} {c : Char} (h : WritesNumber n s)
    (hblank : isBlank c = false) (hdigit : c.isDigit = false) (hplus : c ≠ '+') : c ∉ s := by
  obtain ⟨before, numeral, after, hbefore, hafter, hnumeral, rfl⟩ := h
  obtain ⟨sign, digits, hsign, -, hdigits, -, -, rfl⟩ := hnumeral
  intro hc
  simp only [List.mem_append] at hc
  rcases hc with hc | (hc | hc) | hc
  · rw [hbefore c hc] at hblank
    contradiction
  · rcases hsign with rfl | rfl
    · contradiction
    · exact hplus (List.mem_singleton.1 hc)
  · rw [hdigits c hc] at hdigit
    contradiction
  · rw [hafter c hc] at hblank
    contradiction

/-- Splitting a text at its commas takes a group apart into its numbers, none of which holds a
comma. -/
theorem writesGroup_iff {ns : List Nat} {s : List Char} :
    WritesGroup ns s ↔ List.Forall₂ WritesNumber ns (s.splitOn ',') :=
  joined_iff fun _ _ h => h.not_mem (by decide) (by decide) (by decide)

/-- A group holds no colon, so splitting a text at colons does not cut it. -/
theorem WritesGroup.not_mem_colon {ns : List Nat} {s : List Char} (h : WritesGroup ns s) :
    ':' ∉ s := by
  have hnumber : ∀ {n : Nat} {t : List Char}, WritesNumber n t → ':' ∉ t := by
    intro n t ht
    exact ht.not_mem (by decide) (by decide) (by decide)
  induction h with
  | last h => exact hnumber h
  | more h _ ih =>
      intro hc
      rcases List.mem_append.1 hc with hc | hc
      · exact hnumber h hc
      · exact ih ((List.mem_cons.1 hc).resolve_left (by decide))

/-- A group has at least one digit. This is what tells a group from a blank part, which is passed
over. -/
theorem WritesGroup.not_blank {ns : List Nat} {s : List Char} (h : WritesGroup ns s) :
    ¬ Blank s := by
  have hnumber : ∀ {n : Nat} {t : List Char}, WritesNumber n t → ¬ Blank t := by
    rintro n t ht hblank
    have hread := readNumber_trim.2 ht
    rw [trim_eq_nil.2 hblank] at hread
    contradiction
  cases h with
  | last h => exact hnumber h
  | more h _ => exact fun hblank => hnumber h fun c hc => hblank c (List.mem_append_left _ hc)

variable {α : Type} {form : Form α}

/-- A group is read from a trimmed text just when the text writes numbers that something can be
built of. That the text was trimmed makes no difference, since its numbers are trimmed once more. -/
theorem readGroup_eq_ok {s : List Char} {a : α} : readGroup form (trim s) = .ok a ↔
    ∃ ns, WritesGroup ns s ∧ form.build? ns = some a := by
  have hnumbers : readNumbers (split ',' (trim s)) = readNumbers (s.splitOn ',') := by
    rw [split_eq_splitOn]
    exact readNumbers_congr (map_trim_splitOn_trim (by decide) s)
  rw [readGroup, hnumbers]
  constructor
  · intro h
    cases hread : readNumbers (s.splitOn ',') with
    | error fault =>
        rw [hread] at h
        contradiction
    | ok ns =>
        rw [hread] at h
        refine ⟨ns, writesGroup_iff.2 (readNumbers_eq_ok.1 hread), ?_⟩
        cases hbuild : form.build? ns with
        | none =>
            simp only [hbuild] at h
            contradiction
        | some b =>
            simp only [hbuild] at h
            rw [Except.ok.inj h]
  · rintro ⟨ns, hwrites, hbuild⟩
    rw [readNumbers_eq_ok.2 (writesGroup_iff.1 hwrites)]
    simp only [hbuild]

/-- Blank parts are passed over, and every other has to be a group. By induction on the parts of the
text. A blank part is told by `none` in the list of groups, which is dropped again at the end, so
that the lists correspond part by part. A part that is not blank is read as a group, and
`readGroup_eq_ok` says of which numbers. -/
theorem readGroups_eq_ok {parts : List (List Char)} {as : List α} :
    readGroups form ((parts.map trim).filter fun part => !part.isEmpty) = .ok as ↔
      ∃ groups, List.Forall₂ WritesPart groups parts ∧
        List.Forall₂ (fun group a => form.build? group = some a) (groups.filterMap id) as := by
  induction parts generalizing as with
  | nil =>
      constructor
      · intro h
        obtain rfl := Except.ok.inj h
        exact ⟨[], .nil, .nil⟩
      · rintro ⟨groups, hgroups, has⟩
        cases hgroups
        cases has
        rfl
  | cons part parts ih =>
      by_cases hblank : Blank part
      · rw [List.map_cons, trim_eq_nil.2 hblank, List.filter_cons_of_neg (by decide), ih]
        constructor
        · rintro ⟨groups, hgroups, has⟩
          exact ⟨none :: groups, .cons hblank hgroups, has⟩
        · rintro ⟨groups, hgroups, has⟩
          obtain ⟨g, groups, hg, hrest, rfl⟩ := List.forall₂_cons_right_iff.1 hgroups
          cases g with
          | none => exact ⟨groups, hrest, has⟩
          | some ns => exact absurd hblank (WritesGroup.not_blank hg)
      · have hkeep : (!(trim part).isEmpty) = true := by
          rw [Bool.not_eq_true', List.isEmpty_eq_false_iff]
          exact fun h => hblank (trim_eq_nil.1 h)
        have hfilter : ((part :: parts).map trim).filter (fun part => !part.isEmpty) =
            trim part :: (parts.map trim).filter fun part => !part.isEmpty :=
          List.filter_cons_of_pos hkeep
        rw [hfilter, readGroups]
        constructor
        · intro h
          obtain ⟨a, ha, h⟩ := bind_eq_ok.1 h
          obtain ⟨others, hothers, h⟩ := bind_eq_ok.1 h
          obtain rfl := Except.ok.inj h
          obtain ⟨ns, hwrites, hbuild⟩ := readGroup_eq_ok.1 ha
          obtain ⟨groups, hgroups, has⟩ := ih.1 hothers
          exact ⟨some ns :: groups, .cons hwrites hgroups, .cons hbuild has⟩
        · rintro ⟨groups, hgroups, has⟩
          obtain ⟨g, groups, hg, hrest, rfl⟩ := List.forall₂_cons_right_iff.1 hgroups
          cases g with
          | none => exact absurd hg hblank
          | some ns =>
              obtain ⟨a, others, hbuild, hothers, rfl⟩ := List.forall₂_cons_left_iff.1 has
              rw [readGroup_eq_ok.2 ⟨ns, hg, hbuild⟩, ih.2 ⟨groups, hrest, hothers⟩]
              rfl

/-! ### Forms -/

/-- Something is built from its numbers, and from nothing else. -/
structure Form.Spells (form : Form α) (numbers : α → List Nat) : Prop where
  build?_eq_some : ∀ group a, form.build? group = some a ↔ group = numbers a
  length_numbers : ∀ a, (numbers a).length = form.arity

/-- The numbers of a chip. -/
def chipNumbers (c : Chip) : List Nat := [c.x, c.y]

/-- The numbers of a link. -/
def linkNumbers (l : DownLink) : List Nat := [l.chip.x, l.chip.y, l.link]

/-- A chip is built of its column and its row, and of no other numbers. -/
theorem chip_spells : chip.Spells chipNumbers := by
  refine ⟨fun group c => ⟨fun h => ?_, ?_⟩, fun _ => rfl⟩
  · match group, h with
    | [x, y], h =>
      obtain rfl := Option.some.inj h
      rfl
  · rintro rfl
    rfl

/-- A dead link is built of the column and row of its chip and its number. -/
theorem downLink_spells : downLink.Spells linkNumbers := by
  refine ⟨fun group l => ⟨fun h => ?_, ?_⟩, fun _ => rfl⟩
  · match group, h with
    | [x, y, link], h =>
      obtain rfl := Option.some.inj h
      rfl
  · rintro rfl
    rfl

section Spells

variable {numbers : α → List Nat} {as : List α} {text : String}

/-- Where each thing is built of its own numbers only, the groups that a list of things is built of
are known. There is one list of them, the list of the numbers of each. -/
theorem Form.Spells.forall₂_iff (h : form.Spells numbers) {groups : List (List Nat)} :
    List.Forall₂ (fun group a => form.build? group = some a) groups as ↔
      groups = as.map numbers := by
  have hrel : (fun group a => form.build? group = some a) = fun group a => group = numbers a := by
    funext group a
    exact propext (h.build?_eq_some group a)
  rw [hrel, ← List.forall₂_map_right_iff, List.forall₂_eq_eq_eq]

/-- A text is read just when it writes groups of which something can be built. The colons take the
text apart into parts without a colon, and `readGroups_eq_ok` says what the parts are. -/
theorem ofText_eq_ok (h : form.Spells numbers) :
    ofText form text = .ok as ↔ Writes (as.map numbers) text.toList := by
  have hjoined : ∀ parts : List (Option (List Nat)), Joined ':' WritesPart parts text.toList ↔
      List.Forall₂ WritesPart parts (text.toList.splitOn ':') := by
    intro parts
    apply joined_iff
    intro part s hpart
    cases part with
    | none =>
        intro hc
        exact absurd (hpart _ hc) (by decide)
    | some group => exact WritesGroup.not_mem_colon hpart
  rw [ofText, groupsOf, split_eq_splitOn, readGroups_eq_ok, Writes]
  exact exists_congr fun parts => and_congr (hjoined parts).symm h.forall₂_iff

/-- A group of too many or too few parts, or with a part that is no number. -/
def Malformed (arity : Nat) (group : List Char) : Prop :=
  (group.splitOn ',').length ≠ arity ∨ ∃ part ∈ group.splitOn ',', ∀ n, ¬ WritesNumber n part

/-- One such group is enough for the text to be refused. Were the text read, the group would write
the numbers of something, hence as many as the form has parts, and each of its pieces would write a
number. -/
theorem ofText_eq_error (h : form.Spells numbers) {group : List Char}
    (hmem : group ∈ text.toList.splitOn ':') (hne : ¬ Blank group)
    (hbad : Malformed form.arity group) : ∃ fault, ofText form text = .error fault := by
  cases hread : ofText form text with
  | error fault => exact ⟨fault, rfl⟩
  | ok as =>
      rw [ofText, groupsOf, split_eq_splitOn] at hread
      obtain ⟨parts, hparts, has⟩ := readGroups_eq_ok.1 hread
      obtain ⟨part, hpart, hwrites⟩ := exists_of_forall₂ hparts hmem
      cases part with
      | none => exact absurd hwrites hne
      | some ns =>
          have hns : ns ∈ as.map numbers := by
            rw [← h.forall₂_iff.1 has]
            exact List.mem_filterMap.2 ⟨_, hpart, rfl⟩
          obtain ⟨a, -, rfl⟩ := List.mem_map.1 hns
          have hnumbers := writesGroup_iff.1 hwrites
          rcases hbad with hcount | ⟨piece, hpiece, hbad⟩
          · exact absurd (hnumbers.length_eq.symm.trans (h.length_numbers a)) hcount
          · obtain ⟨n, -, hn⟩ := exists_of_forall₂ hnumbers hpiece
            exact absurd hn (hbad n)

end Spells

/-! ### The list form -/

/-- A written number fits into a word. -/
theorem WritesGroup.lt {ns : List Nat} {s : List Char} (h : WritesGroup ns s) :
    ∀ n ∈ ns, n < Config.wordLimit := by
  have hnumber : ∀ {n : Nat} {t : List Char}, WritesNumber n t → n < Config.wordLimit := by
    rintro n t ⟨before, numeral, after, -, -, ⟨sign, digits, -, -, -, -, hlt, -⟩, -⟩
    exact hlt
  induction h with
  | last h =>
      intro n hn
      obtain rfl := List.mem_singleton.1 hn
      exact hnumber h
  | more h _ ih =>
      intro n hn
      rcases List.mem_cons.1 hn with rfl | hn
      · exact hnumber h
      · exact ih n hn

/-- Every number that a text writes fits into a word, since a numeral that does not is none. -/
theorem Writes.lt {groups : List (List Nat)} {s : List Char} (h : Writes groups s) :
    ∀ group ∈ groups, ∀ n ∈ group, n < Config.wordLimit := by
  obtain ⟨parts, hjoined, rfl⟩ := h
  intro group hgroup
  obtain ⟨part, hpart, rfl⟩ := List.mem_filterMap.1 hgroup
  clear hgroup
  induction hjoined with
  | last h =>
      obtain rfl := List.mem_singleton.1 hpart
      exact WritesGroup.lt h
  | more h _ ih =>
      rcases List.mem_cons.1 hpart with rfl | hpart
      · exact WritesGroup.lt h
      · exact ih hpart

/-- Links are kept up to the first whose number does not fit into a byte. -/
theorem checkLinks_eq (links : List DownLink) :
    checkLinks links = match links.find? fun l => decide (255 < l.link) with
      | some l => .error (.link l.link)
      | none => .ok links := by
  induction links with
  | nil => rfl
  | cons l rest ih =>
      rw [checkLinks, List.find?_cons]
      by_cases hlink : l.link < 256
      · rw [if_pos hlink, decide_eq_false (by omega), ih]
        simp only
        cases List.find? (fun l => decide (255 < l.link)) rest <;> rfl
      · rw [if_neg hlink, decide_eq_true (by omega)]

end Override

namespace Config

open Override

/-- The list form of groups of numbers. -/
def asList (groups : List (List Nat)) : Toml.Value :=
  .list (groups.map fun group => .list (group.map fun n : Nat => .integer n))

/-- Numbers that fit into words are read from a list of integers as they are. -/
theorem words_integers {ns : List Nat} (h : ∀ n ∈ ns, n < wordLimit) :
    words (ns.map fun n : Nat => .integer n) = .ok ns := by
  induction ns with
  | nil => rfl
  | cons n ns ih =>
      obtain ⟨hn, hns⟩ := List.forall_mem_cons.1 h
      have hword : word (.integer n) = .ok n := by
        have hfits : (0 : Int) ≤ n ∧ (n : Int) < wordLimit :=
          ⟨Int.natCast_nonneg n, Int.ofNat_lt.2 hn⟩
        rw [word, if_pos hfits, Int.toNat_natCast]
      rw [List.map_cons, words, hword, ih hns]
      rfl

/-- The list form of some groups is read as what they are built of, as long as their numbers fit
into words. -/
theorem override_asList {α : Type} {form : Form α} {numbers : α → List Nat} {as : List α}
    (h : form.Spells numbers) (hlt : ∀ group ∈ as.map numbers, ∀ n ∈ group, n < wordLimit) :
    Config.override form (asList (as.map numbers)) = .ok as := by
  show groups form ((as.map numbers).map _) = .ok as
  induction as with
  | nil => rfl
  | cons a as ih =>
      obtain ⟨ha, has⟩ := List.forall_mem_cons.1 hlt
      have hgroup : group form (.list ((numbers a).map fun n : Nat => .integer n)) = .ok a := by
        rw [group, words_integers ha]
        show (ofNumbers form (numbers a)).mapError _ = _
        rw [ofNumbers, (h.build?_eq_some _ a).2 rfl]
        rfl
      rw [List.map_cons, List.map_cons, groups, hgroup, ih has]
      rfl

/-- The text form is read by the reader of compact texts, and from just the texts that write the
groups. -/
theorem override_text {α : Type} {form : Form α} {numbers : α → List Nat} {as : List α}
    {text : String} (h : form.Spells numbers) :
    Config.override form (.text text) = .ok as ↔ Writes (as.map numbers) text.toList := by
  rw [← ofText_eq_ok h, Config.override]
  cases ofText form text <;> simp [Except.mapError]

/-- Link numbers are checked after the reading, whatever the form. -/
theorem downLinks_eq {v : Toml.Value} {links : List DownLink}
    (h : Config.override downLink v = .ok links) :
    downLinks v = match links.find? fun l => decide (255 < l.link) with
      | some l => .error (.override (.link l.link))
      | none => .ok links := by
  rw [downLinks, h]
  show (checkLinks links).mapError _ = _
  rw [checkLinks_eq]
  cases links.find? fun l => decide (255 < l.link) <;> rfl

/-- Dead links are accepted when they can be read and each of them has a number that fits into a
byte. -/
theorem downLinks_eq_ok {v : Toml.Value} {links : List DownLink} :
    downLinks v = .ok links ↔
      Config.override downLink v = .ok links ∧ ∀ l ∈ links, l.link ≤ 255 := by
  have hsmall : links.find? (fun l => decide (255 < l.link)) = none ↔ ∀ l ∈ links, l.link ≤ 255 := by
    simp
  constructor
  · intro h
    obtain ⟨read, hread, -⟩ := bind_eq_ok.1 h
    have hdown := downLinks_eq hread
    rw [h] at hdown
    cases hfind : read.find? fun l => decide (255 < l.link) with
    | some l =>
        rw [hfind] at hdown
        contradiction
    | none =>
        rw [hfind] at hdown
        obtain rfl := Except.ok.inj hdown
        exact ⟨hread, hsmall.1 hfind⟩
  · intro h
    rw [downLinks_eq h.1, hsmall.2 h.2]

/-- A text means the list of the groups it writes. Dead chips are read from it just when it writes
their pairs of numbers, and the list of these pairs gives the same chips. For dead links it is the
same with three numbers each; a link number above 255 is refused then, in a text as in a list. A
part that is not blank and is no group of the right length makes the text refused. -/
theorem text_means_list (text : String) :
    (∀ chips : List Chip,
      (Config.override Override.chip (.text text) = .ok chips ↔
        Writes (chips.map chipNumbers) text.toList) ∧
      (Writes (chips.map chipNumbers) text.toList →
        Config.override Override.chip (asList (chips.map chipNumbers)) = .ok chips)) ∧
    (∀ links : List DownLink,
      (downLinks (.text text) = .ok links ↔
        Writes (links.map linkNumbers) text.toList ∧ ∀ l ∈ links, l.link ≤ 255) ∧
      (Writes (links.map linkNumbers) text.toList →
        downLinks (.text text) = downLinks (asList (links.map linkNumbers)) ∧
        ∀ l, links.find? (fun l => decide (255 < l.link)) = some l →
          downLinks (.text text) = .error (.override (.link l.link)))) ∧
    ∀ group ∈ text.toList.splitOn ':', ¬ Blank group →
      (Malformed 2 group → ∃ fault, Config.override Override.chip (.text text) = .error fault) ∧
      (Malformed 3 group → ∃ fault, downLinks (.text text) = .error fault) := by
  refine ⟨fun chips => ⟨override_text chip_spells, fun h => override_asList chip_spells h.lt⟩,
    fun links => ⟨?_, fun h => ?_⟩, fun group hgroup hblank => ⟨fun hbad => ?_, fun hbad => ?_⟩⟩
  · rw [downLinks_eq_ok, override_text downLink_spells]
  · have htext := downLinks_eq ((override_text downLink_spells).2 h)
    refine ⟨?_, fun l hl => ?_⟩
    · rw [htext, downLinks_eq (override_asList downLink_spells h.lt)]
    · rw [htext, hl]
  · obtain ⟨fault, hfault⟩ := ofText_eq_error chip_spells hgroup hblank hbad
    exact ⟨.override fault, by rw [Config.override, hfault]; rfl⟩
  · obtain ⟨fault, hfault⟩ := ofText_eq_error downLink_spells hgroup hblank hbad
    exact ⟨.override fault, by rw [downLinks, Config.override, hfault]; rfl⟩

/-- White space, plus signs, leading zeros and blank groups change nothing; a link number above a
byte is refused from the text and from the list alike, and a group of the wrong length or a negative
number is refused in a text. -/
theorem spaced_text_means_list :
    Config.override Override.chip (asList [[1, 2], [3, 4]]) = .ok [⟨1, 2⟩, ⟨3, 4⟩] ∧
    downLinks (.text "0,1,2: 3,4,300") = downLinks (asList [[0, 1, 2], [3, 4, 300]]) ∧
    downLinks (.text "0,1,2: 3,4,300") = .error (.override (.link 300)) ∧
    (∃ fault, Config.override Override.chip (.text "1,2:3") = .error fault) ∧
    ∃ fault, downLinks (.text "1,2,-3") = .error fault := by
  have hchips : ofText Override.chip " 1 ,\t+2 : :3,04:" = .ok [⟨1, 2⟩, ⟨3, 4⟩] := rfl
  have hlinks : ofText downLink "0,1,2: 3,4,300" = .ok [⟨⟨0, 1⟩, 2⟩, ⟨⟨3, 4⟩, 300⟩] := rfl
  have hlist := ((text_means_list "0,1,2: 3,4,300").2.1 [⟨⟨0, 1⟩, 2⟩, ⟨⟨3, 4⟩, 300⟩]).2
    ((ofText_eq_ok downLink_spells).1 hlinks)
  have hdigit : isBlank '3' = false := rfl
  have hnot {s : List Char} (hmem : '3' ∈ s) : ¬ Blank s := fun h => by
    rw [h '3' hmem] at hdigit
    contradiction
  refine ⟨((text_means_list " 1 ,\t+2 : :3,04:").1 [⟨1, 2⟩, ⟨3, 4⟩]).2
    ((ofText_eq_ok chip_spells).1 hchips), hlist.1, hlist.2 _ rfl, ?_, ?_⟩
  · exact ((text_means_list "1,2:3").2.2 ['3'] (by decide) (hnot (by decide))).1
      (.inl (by decide))
  · refine ((text_means_list "1,2,-3").2.2 "1,2,-3".toList (by decide) (hnot (by decide))).2
      (.inr ⟨['-', '3'], by decide, fun n hn => ?_⟩)
    have hminus : readNumber (trim ['-', '3']) = .error .notDigit := rfl
    rw [readNumber_trim.2 hn] at hminus
    contradiction

end Config

end Multicast
