import Mathlib.Algebra.Ring.Nat
import Multicast.Digest.Fingerprint
import Multicast.Proofs.Table.Entries

/-!
# `Multicast.Proofs.Table.Bytes`: the bytes determine the tables

Nothing separates the parts of encoded tables: lists, entries and numbers follow one
another, and where one ends shows in what was read so far. A code with this property is
`SelfDelimiting`. Numbers have it, since the first byte says how many are to come, and a
list has it where its elements do, since its length is read first. Four lists deep this
gives back the tables (`tables_inj`), so fingerprints of different tables agree only
where the digests of different bytes do.
-/

set_option autoImplicit false

namespace Multicast

namespace Encoding

/-- No code word is the beginning of another: where one is read is known before what follows. -/
def SelfDelimiting {α : Type} (code : α → List UInt8) : Prop :=
  ∀ ⦃a b : α⦄ ⦃r s : List UInt8⦄, code a ++ r = code b ++ s → a = b ∧ r = s

/-- A code whose words can be told from what follows gives different words to different values, with
nothing following. -/
theorem SelfDelimiting.injective {α : Type} {code : α → List UInt8} (hcode : SelfDelimiting code) :
    Function.Injective code := by
  intro a b h
  have happend : code a ++ [] = code b ++ [] := congrArg (· ++ []) h
  exact (hcode happend).1

/-! ### Numbers -/

/-- A fixed number of bytes says what a number is up to what does not fit into them. By induction on
the bytes, the lowest of which comes first. -/
theorem littleEndian_append {count m n : Nat} {r s : List UInt8}
    (h : littleEndian count m ++ r = littleEndian count n ++ s) :
    m % room count = n % room count ∧ r = s := by
  induction count generalizing m n with
  | zero =>
      have hroom : room 0 = 1 := rfl
      rw [hroom, Nat.mod_one, Nat.mod_one]
      exact ⟨rfl, h⟩
  | succ count ih =>
      obtain ⟨hbyte, htail⟩ := List.cons.inj h
      obtain ⟨hhigh, hrest⟩ := ih htail
      have hlow : m % 256 = n % 256 := by simpa using congrArg UInt8.toNat hbyte
      have hroom : room (count + 1) = 256 * room count := Nat.pow_succ'
      rw [hroom, Nat.mod_mul, Nat.mod_mul, hlow, hhigh]
      exact ⟨rfl, hrest⟩

/-- How many bytes follow a leading byte from 251 to 254. -/
def following (lead : UInt8) : Nat := 2 ^ (lead.toNat - 250)

/-- The three ways a number is written. -/
inductive Written (n : Nat) : List UInt8 → Prop
  | byte (h : n ≤ 250) : Written n [UInt8.ofNat n]
  | bytes (lead : UInt8) (hlead : 250 < lead.toNat ∧ lead.toNat < 255)
      (h : n < room (following lead)) : Written n (lead :: littleEndian (following lead) n)
  | wide (h : room 16 ≤ n) : Written n (255 :: (littleEndian 16 n ++ number (n / room 16)))

/-- Every number is written in one of the three ways. -/
theorem written_number (n : Nat) : Written n (number n) := by
  rw [number]
  split
  · next h => exact .byte h
  split
  · next h => exact .bytes 251 (by decide) h
  split
  · next h => exact .bytes 252 (by decide) h
  split
  · next h => exact .bytes 253 (by decide) h
  split
  · next h => exact .bytes 254 (by decide) h
  · next h => exact .wide (Nat.le_of_not_lt h)

/-- The byte of a small number leads nothing. -/
theorem ofNat_ne {n : Nat} {lead : UInt8} (hn : n ≤ 250) (hlead : 250 < lead.toNat) :
    UInt8.ofNat n ≠ lead := by
  intro h
  have hvalue := congrArg UInt8.toNat h
  rw [UInt8.toNat_ofNat'] at hvalue
  omega

/-- The first byte tells the ways apart, and how many bytes there are. For the numbers that take
more than sixteen bytes this is by induction on the number. -/
theorem selfDelimiting_number : SelfDelimiting number := by
  intro m
  -- The high part of a number that takes more than sixteen bytes is smaller than the number.
  induction m using Nat.strongRecOn with
  | ind m ih =>
      intro n r s h
      have hm := written_number m
      have hn := written_number n
      generalize number m = word at hm h
      generalize number n = word' at hn h
      cases hm with
      | byte hm =>
          cases hn with
          | byte hn =>
              obtain ⟨hbyte, hrest⟩ := List.cons.inj h
              have hvalue := congrArg UInt8.toNat hbyte
              rw [UInt8.toNat_ofNat', UInt8.toNat_ofNat'] at hvalue
              exact ⟨by omega, hrest⟩
          | bytes lead hlead => exact absurd (List.cons.inj h).1 (ofNat_ne hm hlead.1)
          | wide => exact absurd (List.cons.inj h).1 (ofNat_ne hm (by decide))
      | bytes lead hlead hm =>
          cases hn with
          | byte hn => exact absurd (List.cons.inj h).1.symm (ofNat_ne hn hlead.1)
          | bytes lead' hlead' hn =>
              obtain ⟨rfl, htail⟩ := List.cons.inj h
              obtain ⟨hmod, hrest⟩ := littleEndian_append htail
              rw [Nat.mod_eq_of_lt hm, Nat.mod_eq_of_lt hn] at hmod
              exact ⟨hmod, hrest⟩
          | wide =>
              obtain ⟨rfl, -⟩ := List.cons.inj h
              exact absurd hlead.2 (by decide)
      | wide hm =>
          cases hn with
          | byte hn => exact absurd (List.cons.inj h).1.symm (ofNat_ne hn (by decide))
          | bytes lead hlead =>
              obtain ⟨rfl, -⟩ := List.cons.inj h
              exact absurd hlead.2 (by decide)
          | wide =>
              have htail : littleEndian 16 m ++ number (m / room 16) ++ r =
                  littleEndian 16 n ++ number (n / room 16) ++ s := (List.cons.inj h).2
              rw [List.append_assoc, List.append_assoc] at htail
              obtain ⟨hlow, hhigh⟩ := littleEndian_append htail
              have hroom : 1 < room 16 := by decide
              obtain ⟨hdiv, hrest⟩ := ih (m / room 16) (Nat.div_lt_self (by omega) hroom) hhigh
              refine ⟨?_, hrest⟩
              calc m = room 16 * (m / room 16) + m % room 16 := (Nat.div_add_mod ..).symm
                _ = room 16 * (n / room 16) + n % room 16 := by rw [hdiv, hlow]
                _ = n := Nat.div_add_mod ..

/-! ### Lists and optional values -/

section Combined

variable {α : Type} {code : α → List UInt8}

/-- The number of elements comes first, so that it is known where the last of them ends. The
elements are then read one by one, each of them delimiting itself. -/
theorem selfDelimiting_list (hcode : SelfDelimiting code) : SelfDelimiting (list code) := by
  intro a b r s h
  rw [list, list, List.append_assoc, List.append_assoc] at h
  obtain ⟨hlength, helements⟩ := selfDelimiting_number h
  clear h
  induction a generalizing b with
  | nil =>
      obtain rfl := List.eq_nil_of_length_eq_zero hlength.symm
      exact ⟨rfl, helements⟩
  | cons x a ih =>
      cases b with
      | nil => contradiction
      | cons y b =>
          rw [List.flatMap_cons, List.flatMap_cons, List.append_assoc, List.append_assoc]
            at helements
          obtain ⟨rfl, htail⟩ := hcode helements
          obtain ⟨rfl, hrest⟩ := ih (Nat.succ.inj hlength) htail
          exact ⟨rfl, hrest⟩

/-- The first byte tells whether a value follows. -/
theorem selfDelimiting_optional (hcode : SelfDelimiting code) : SelfDelimiting (optional code) := by
  intro a b r s h
  cases a with
  | none =>
      cases b with
      | none => exact ⟨rfl, (List.cons.inj h).2⟩
      | some y => exact absurd (List.cons.inj h).1 (by decide)
  | some x =>
      cases b with
      | none => exact absurd (List.cons.inj h).1 (by decide)
      | some y =>
          obtain ⟨rfl, hrest⟩ := hcode (List.cons.inj h).2
          exact ⟨rfl, hrest⟩

end Combined

/-! ### The parts of the tables -/

/-- A link is written by its number, which no two links share. -/
theorem selfDelimiting_link : SelfDelimiting link := by
  intro a b r s h
  obtain ⟨hnumber, hrest⟩ := selfDelimiting_number h
  exact ⟨Direction.linkId_inj hnumber, hrest⟩

/-- A core is one byte. -/
theorem selfDelimiting_core : SelfDelimiting core := by
  intro a b r s h
  exact List.cons.inj h

/-- A chip is its column, then its row. -/
theorem selfDelimiting_chip : SelfDelimiting chip := by
  rintro ⟨x, y⟩ ⟨x', y'⟩ r s h
  simp only [chip, List.append_assoc] at h
  obtain ⟨hx, hy⟩ := selfDelimiting_number h
  obtain ⟨hy, hrest⟩ := selfDelimiting_number hy
  rw [hx, hy]
  exact ⟨rfl, hrest⟩

/-- An entry is its four parts one after another, each read off before the next. -/
theorem selfDelimiting_entry : SelfDelimiting entry := by
  rintro ⟨links, cores, link, core⟩ ⟨links', cores', link', core'⟩ r s h
  simp only [entry, List.append_assoc] at h
  obtain ⟨hlinks, hcores⟩ := selfDelimiting_list selfDelimiting_link h
  obtain ⟨hcores, hlink⟩ := selfDelimiting_list selfDelimiting_core hcores
  obtain ⟨hlink, hcore⟩ := selfDelimiting_optional selfDelimiting_link hlink
  obtain ⟨hcore, hrest⟩ := selfDelimiting_optional selfDelimiting_core hcore
  rw [hlinks, hcores, hlink, hcore]
  exact ⟨rfl, hrest⟩

/-- A partition and its entry. -/
def keyed (k : Partition × Entry) : List UInt8 :=
  number k.1.number.toNat ++ entry k.2

/-- A partition is a number that fits into its word, so the number read is the one written. -/
theorem selfDelimiting_keyed : SelfDelimiting keyed := by
  rintro ⟨⟨p⟩, e⟩ ⟨⟨q⟩, e'⟩ r s h
  simp only [keyed, List.append_assoc] at h
  obtain ⟨hpartition, hentry⟩ := selfDelimiting_number h
  obtain ⟨hentry, hrest⟩ := selfDelimiting_entry hentry
  rw [UInt32.toNat_inj.1 hpartition, hentry]
  exact ⟨rfl, hrest⟩

/-- A chip and its entries by partition, of which there may be none. -/
def shelf (s : Chip × List (Partition × Entry)) : List UInt8 :=
  chip s.1 ++ list keyed s.2

/-- A shelf is its chip, then the list of its entries. -/
theorem selfDelimiting_shelf : SelfDelimiting shelf := by
  rintro ⟨c, l⟩ ⟨c', l'⟩ r s h
  simp only [shelf, List.append_assoc] at h
  obtain ⟨hchip, hlist⟩ := selfDelimiting_chip h
  obtain ⟨hlist, hrest⟩ := selfDelimiting_list selfDelimiting_keyed hlist
  rw [hchip, hlist]
  exact ⟨rfl, hrest⟩

end Encoding

/-! ### The tables as lists of lists -/

namespace Tables

/-- The chip of a group, and its entries by partition. -/
def shelfOf : List Row → Chip × List (Partition × Entry)
  | [] => (default, [])
  | row :: rest => (row.slot.chip, (row :: rest).map fun r => (r.slot.partition, r.entry))

/-- The rows of one chip. -/
def rowsOf (s : Chip × List (Partition × Entry)) : List Row :=
  s.2.map fun k => ⟨⟨s.1, k.1⟩, k.2⟩

/-- The entries by chip, and on each chip by partition. -/
def shelves (t : Tables) : List (Chip × List (Partition × Entry)) :=
  t.groups.map shelfOf

/-- A group is named for its first row, and all its rows are on that chip. -/
theorem rowsOf_shelfOf {t : Tables} {group : List Row} (h : group ∈ t.groups) :
    rowsOf (shelfOf group) = group := by
  cases group with
  | nil => rfl
  | cons row rest =>
      have hsame := (mem_groups h).2
      rw [shelfOf, rowsOf, List.map_map]
      refine (List.map_congr_left ?_).trans (List.map_id _)
      intro x hx
      have hchip : row.slot.chip = x.slot.chip := by
        rcases List.mem_cons.1 hx with rfl | hx
        · rfl
        · exact List.rel_of_pairwise_cons hsame hx
      show (⟨⟨row.slot.chip, x.slot.partition⟩, x.entry⟩ : Row) = x
      rw [hchip]

/-- The shelves hold the rows of the tables, in their order. -/
theorem rows_eq_flatMap (t : Tables) : t.rows = t.shelves.flatMap rowsOf := by
  have hgroups : t.shelves.map rowsOf = t.groups := by
    rw [shelves, List.map_map]
    exact (List.map_congr_left fun _ h => rowsOf_shelfOf h).trans (List.map_id _)
  rw [List.flatMap_def, hgroups, groups, List.flatten_splitBy]

/-- Tables with the same shelves have the same rows, hence the same entry in every slot. -/
theorem shelves_inj {t u : Tables} (h : t.shelves = u.shelves) : t = u := by
  have hrows : t.rows = u.rows := by rw [rows_eq_flatMap, rows_eq_flatMap, h]
  apply ext
  intro slot
  apply Option.ext
  intro e
  have hmem : (⟨slot, e⟩ : Row) ∈ t.rows ↔ ⟨slot, e⟩ ∈ u.rows := by rw [hrows]
  rwa [mem_rows, mem_rows] at hmem

end Tables

namespace Encoding

/-- No group is empty, so each is written with its chip. -/
theorem tables_eq_list_shelf (t : Tables) : tables t = list shelf t.shelves := by
  have hgroup : ∀ g ∈ t.groups, group g = shelf (Tables.shelfOf g) := by
    intro g hg
    cases g with
    | nil => exact absurd hg (List.nil_notMem_splitBy _ _)
    | cons row rest =>
        rw [group, Tables.shelfOf, shelf, list, list, List.length_map, List.flatMap_map]
        rfl
  rw [tables, list, list, Tables.shelves, List.length_map, List.flatMap_map]
  exact congrArg _ (List.flatMap_congr hgroup)

/-- No two tables are written alike. -/
theorem tables_inj {t u : Tables} (h : tables t = tables u) : t = u := by
  rw [tables_eq_list_shelf, tables_eq_list_shelf] at h
  exact Tables.shelves_inj ((selfDelimiting_list selfDelimiting_shelf).injective h)

end Encoding

namespace Fingerprint

/-- A fingerprint says what the digest is. -/
theorem ofBytes_inj {a b : List UInt8} :
    ofBytes a = ofBytes b ↔ Xxh3.digest a.toArray = Xxh3.digest b.toArray := by
  constructor
  · intro h
    obtain ⟨hlow, hrest⟩ := Encoding.littleEndian_append (Fingerprint.mk.inj h)
    have hhigh := (Encoding.littleEndian_append (congrArg (· ++ []) hrest)).1
    have hroom : ∀ x : UInt64, x.toNat % Encoding.room 8 = x.toNat := by
      intro x
      exact Nat.mod_eq_of_lt x.toNat_lt
    rw [hroom, hroom] at hlow hhigh
    cases hda : Xxh3.digest a.toArray
    cases hdb : Xxh3.digest b.toArray
    rw [hda, hdb] at hlow hhigh
    exact congr (congrArg _ (UInt64.toNat_inj.1 hlow)) (UInt64.toNat_inj.1 hhigh)
  · intro h
    rw [ofBytes, ofBytes, h]

end Fingerprint

/-- The bytes that are hashed determine the tables: they are equal just for tables with the same
entry, or none, in each slot, however these came there. So two tables have one fingerprint if they
are equal, and otherwise only if two different byte strings have one digest. -/
theorem Tables.bytes_determine (t u : Tables) :
    (Encoding.tables t = Encoding.tables u ↔ t = u) ∧
    (t = u ↔ ∀ slot, t.get? slot = u.get? slot) ∧
    (Fingerprint.ofTables t = Fingerprint.ofTables u ↔
      t = u ∨ Encoding.tables t ≠ Encoding.tables u ∧
        Xxh3.digest (Encoding.tables t).toArray = Xxh3.digest (Encoding.tables u).toArray) := by
  have hbytes : Encoding.tables t = Encoding.tables u ↔ t = u :=
    ⟨Encoding.tables_inj, congrArg _⟩
  refine ⟨hbytes, ⟨fun h _ => by rw [h], Tables.ext⟩, ?_⟩
  rw [Fingerprint.ofTables, Fingerprint.ofTables, Fingerprint.ofBytes_inj, ne_eq, hbytes]
  constructor
  · intro hdigest
    by_cases heq : t = u
    · exact .inl heq
    · exact .inr ⟨heq, hdigest⟩
  · intro h
    rcases h with rfl | h
    · rfl
    · exact h.2

end Multicast
