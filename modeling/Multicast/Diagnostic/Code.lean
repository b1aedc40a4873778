/-!
# `Multicast.Diagnostic.Code`: severities and codes

A diagnostic has a severity and a code. A code is a category letter with a
number, written with at least three digits.
-/

set_option autoImplicit false

namespace Multicast

/-- How serious a diagnostic is. -/
inductive Severity where
  | note
  | warning
  | error
deriving DecidableEq, Inhabited

namespace Severity

/-- The place of a severity, the most serious last. -/
def rank : Severity → Nat
  | note => 0
  | warning => 1
  | error => 2

/-- The written form of a severity. -/
def text : Severity → String
  | note => "note"
  | warning => "warning"
  | error => "error"

/-- By how serious they are. -/
def compare (a b : Severity) : Ordering :=
  Ord.compare a.rank b.rank

end Severity

/-- What kind of thing a diagnostic is about. -/
inductive Category where
  /-- Routing that failed. -/
  | error
  /-- Routing that succeeded with something suspicious about it. -/
  | warning
  /-- A repair around something dead. -/
  | fault
  /-- The configuration. -/
  | config
  /-- Figures about the result. -/
  | note
deriving DecidableEq, Inhabited

/-- The letter of a category. -/
def Category.letter : Category → String
  | error => "E"
  | warning => "W"
  | fault => "F"
  | config => "C"
  | note => "N"

/-- A category with a number. -/
structure Code where
  category : Category
  number : Nat
deriving DecidableEq, Inhabited

/-- A number in decimal, with zeros in front up to three digits. -/
def threeDigits (n : Nat) : String :=
  if n < 10 then s!"00{n}" else if n < 100 then s!"0{n}" else toString n

/-- The letter, then the number. -/
def Code.text (c : Code) : String :=
  c.category.letter ++ threeDigits c.number

end Multicast
