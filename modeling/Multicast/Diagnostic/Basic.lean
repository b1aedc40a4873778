import Multicast.Diagnostic.Code
import Multicast.Geometry.Chip

/-!
# `Multicast.Diagnostic.Basic`: messages about a run

A diagnostic says what happened, how serious it is and, where one applies, on
which chip. Labels name further chips; notes and help follow as plain lines.
-/

set_option autoImplicit false

namespace Multicast

/-- Another chip a diagnostic is about, and what it has to do with it. -/
structure Label where
  chip : Chip
  message : String
deriving DecidableEq

/-- One message. -/
structure Diagnostic where
  severity : Severity
  code : Code
  message : String
  chip : Option Chip
  labels : List Label
  notes : List String
  help : List String
deriving DecidableEq

/-- A message with nothing but its text. -/
def Diagnostic.plain (severity : Severity) (code : Code) (message : String) : Diagnostic :=
  { severity, code, message, chip := none, labels := [], notes := [], help := [] }

end Multicast
