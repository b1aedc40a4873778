import Multicast.Diagnostic.Basic

/-!
# `Multicast.Diagnostic.Log`: the diagnostics of a run

A log keeps diagnostics in the order in which they came and counts errors and
warnings. Taking the diagnostics out leaves the counts as they are: they count
everything that ever came in.
-/

set_option autoImplicit false

namespace Multicast

/-- Diagnostics not yet taken out, and counts of all errors and warnings so far. -/
structure Log where
  diagnostics : List Diagnostic
  errors : Nat
  warnings : Nat
deriving DecidableEq

namespace Log

/-- Nothing has come in. -/
def empty : Log := ⟨[], 0, 0⟩

/-- Adds a diagnostic. -/
def emit (l : Log) (d : Diagnostic) : Log :=
  { diagnostics := l.diagnostics ++ [d]
    errors := if d.severity = .error then l.errors + 1 else l.errors
    warnings := if d.severity = .warning then l.warnings + 1 else l.warnings }

/-- Adds diagnostics one after another. -/
def emitAll (l : Log) (ds : List Diagnostic) : Log :=
  ds.foldl emit l

/-- Whether an error has come in. -/
def hasErrors (l : Log) : Bool :=
  decide (0 < l.errors)

/-- Takes the diagnostics out; the counts stay. -/
def drain (l : Log) : List Diagnostic × Log :=
  (l.diagnostics, { l with diagnostics := [] })

end Log

end Multicast
