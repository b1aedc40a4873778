import Multicast.Collection.Ordered
import Multicast.Traffic.Endpoint

/-!
# `Multicast.Table.Entry`: what a chip does with the packets of a group

An entry names the links and cores a packet is copied to, and where packets
come from as far as that is known. Two entries for one key can be merged when
they agree on the ways out; what they say about the way in is then combined:
silence gives way, agreement stays, disagreement is forgotten.
-/

set_option autoImplicit false

namespace Multicast

/-- Where packets of one group go on one chip, and where they come from. The links and the cores
are kept increasing and without repeats. -/
structure Entry where
  links : List Direction
  cores : List UInt8
  incomingLink : Option Direction
  incomingCore : Option UInt8
deriving DecidableEq, Inhabited

namespace Entry

/-- The order of links. -/
def linkBefore (a b : Direction) : Bool := decide (a.linkId < b.linkId)

/-- The order of cores. -/
def coreBefore (a b : UInt8) : Bool := decide (a.toNat < b.toNat)

/-- Sends packets nowhere. -/
def empty : Entry := ⟨[], [], none, none⟩

/-- The entry with the given ways out and ways in, put in order. -/
def of (links : List Direction) (cores : List UInt8) (incomingLink : Option Direction)
    (incomingCore : Option UInt8) : Entry :=
  { links := Ordered.ofList linkBefore links
    cores := Ordered.ofList coreBefore cores
    incomingLink, incomingCore }

/-- Whether packets go nowhere. -/
def isEmpty (e : Entry) : Bool :=
  e.links.isEmpty && e.cores.isEmpty

/-- Adds a way out. -/
def addRoute (e : Entry) : Route → Entry
  | .link d => { e with links := Ordered.insert linkBefore d e.links }
  | .core c => { e with cores := Ordered.insert coreBefore c e.cores }

/-- Whether a router does the same without the entry: a packet that came in over a link and goes
on straight ahead, and nowhere else. -/
def isDefaultable (e : Entry) : Bool :=
  match e.cores, e.incomingCore, e.incomingLink, e.links with
  | [], none, some incoming, [outgoing] => outgoing == incoming.opposite
  | _, _, _, _ => false

/-- What two sources say about a way in. -/
def mergeIncoming {α : Type} [DecidableEq α] : Option α → Option α → Option α
  | none, b => b
  | a, none => a
  | some a, some b => if a = b then some a else none

/-- Whether two entries have the same ways out. -/
def agrees (a b : Entry) : Bool :=
  a.links == b.links && a.cores == b.cores

/-- Two entries for one key as one, where they have the same ways out. -/
def merge? (a b : Entry) : Option Entry :=
  if a.agrees b then
    some { a with
      incomingLink := mergeIncoming a.incomingLink b.incomingLink
      incomingCore := mergeIncoming a.incomingCore b.incomingCore }
  else none

end Entry

end Multicast
