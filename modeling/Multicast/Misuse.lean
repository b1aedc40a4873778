import Multicast.Tree.Basic

/-!
# `Multicast.Misuse`: broken preconditions

The definitions of this library are total, but some calls mean something only
when a precondition holds: the sides of a torus are positive, a node is in the
row, an axis exists. `Misuse` names what was broken; `Multicast.Guard` checks.
-/

set_option autoImplicit false

namespace Multicast

/-- A precondition that a call did not meet. -/
inductive Misuse where
  /-- A step on a torus with an empty side. -/
  | emptySide
  /-- A direction was asked for no hops. -/
  | zeroHop
  /-- An axis other than the three. -/
  | noSuchAxis (index : Nat)
  /-- A node the row does not hold. -/
  | missingNode (id : NodeId)
  /-- A tree whose copy would never end. -/
  | endlessTree
deriving DecidableEq

/-- What was broken, in words. -/
def Misuse.message : Misuse → String
  | emptySide => "a torus with an empty side has no steps"
  | zeroHop => "no hops have no direction"
  | noSuchAxis index => s!"there is no axis {index}"
  | missingNode id => s!"there is no node {id}"
  | endlessTree => "the tree has no end"

/-- A broken invariant of the library itself, for which no caller is to blame. -/
structure Defect where
  detail : String
deriving DecidableEq

/-- What was broken, in words. -/
def Defect.message (d : Defect) : String :=
  "internal router error: " ++ d.detail

end Multicast
