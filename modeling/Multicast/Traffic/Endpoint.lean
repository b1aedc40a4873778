import Multicast.Geometry.Direction

/-!
# `Multicast.Traffic.Endpoint`: where packets leave a chip

A packet leaves a chip over a link or into one of its cores: that is a `Route`.
Traffic starts and ends at an `Endpoint`, which is a core, or a device wired to
a link of a chip.
-/

set_option autoImplicit false

namespace Multicast

/-- A way out of a chip: over a link, or into a core. -/
inductive Route where
  | link (direction : Direction)
  | core (core : UInt8)
deriving DecidableEq, Inhabited

namespace Route

/-- The link taken, if a link is taken. -/
def link? : Route → Option Direction
  | link d => some d
  | core _ => none

/-- The core delivered to, if one is. -/
def core? : Route → Option UInt8
  | link _ => none
  | core c => some c

/-- The written form of a way out. -/
def text : Route → String
  | link d => s!"link {d.name}"
  | core c => s!"core {c.toNat}"

/-- Links by number, then cores by number. -/
def before : Route → Route → Bool
  | link a, link b => decide (a.linkId < b.linkId)
  | link _, core _ => true
  | core _, link _ => false
  | core a, core b => decide (a.toNat < b.toNat)

end Route

/-- Where traffic starts or ends: a core of a chip, or a device on one of its links. -/
inductive Endpoint where
  | core (chip : Chip) (core : UInt8)
  | device (chip : Chip) (link : Direction)
deriving DecidableEq, Inhabited

namespace Endpoint

/-- The chip an endpoint belongs to. -/
def chip : Endpoint → Chip
  | core c _ => c
  | device c _ => c

/-- The way out of its chip that reaches an endpoint. -/
def route : Endpoint → Route
  | core _ n => .core n
  | device _ d => .link d

/-- Whether an endpoint is a core. -/
def isCore : Endpoint → Bool
  | core _ _ => true
  | device _ _ => false

/-- The written form of an endpoint. -/
def text : Endpoint → String
  | core c n => s!"core {n.toNat} of {c.text}"
  | device c d => s!"device on link {d.name} of {c.text}"

/-- Cores come before devices. -/
def kind : Endpoint → Nat
  | core _ _ => 0
  | device _ _ => 1

/-- The number of the core, or of the link a device is on. -/
def number : Endpoint → Nat
  | core _ n => n.toNat
  | device _ d => d.linkId

/-- Cores before devices; then by chip; then by core or link number. -/
instance : Ord Endpoint :=
  ⟨compareLex (compareOn kind) (compareLex (compareOn chip) (compareOn number))⟩

instance : Std.TransOrd Endpoint :=
  inferInstanceAs
    (Std.TransCmp (compareLex (compareOn kind) (compareLex (compareOn chip) (compareOn number))))

/-- Kind, chip and number make an endpoint. -/
theorem eq_of_parts {a b : Endpoint} (hk : a.kind = b.kind) (hc : a.chip = b.chip)
    (hn : a.number = b.number) : a = b := by
  cases a <;> cases b <;> simp_all [kind, chip, number]
  · exact UInt8.toNat_inj.1 hn
  · exact Direction.linkId_inj hn

instance : Std.LawfulEqOrd Endpoint where
  eq_of_compare {a b} h := by
    obtain ⟨hk, h⟩ := Ordering.then_eq_eq.1 h
    obtain ⟨hc, hn⟩ := Ordering.then_eq_eq.1 h
    exact eq_of_parts (Std.LawfulEqOrd.eq_of_compare hk) (Std.LawfulEqOrd.eq_of_compare hc)
      (Std.LawfulEqOrd.eq_of_compare hn)

end Endpoint

end Multicast
