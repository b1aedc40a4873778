import Multicast.Diagnostic.Log

/-!
# `Multicast.Diagnostic.Render`: diagnostics as terminal text

The first line holds severity, code and message; with colour, severity and code
are set off. Every further line is indented and holds one thing.
-/

set_option autoImplicit false

namespace Multicast

/-- The number of the terminal colour of a severity: red, yellow or cyan. -/
def Severity.colour : Severity → Nat
  | error => 31
  | warning => 33
  | note => 36

/-- A text in the bold colour of a severity. -/
def Severity.paint (s : Severity) (text : String) : String :=
  "\x1b[1;" ++ toString s.colour ++ "m" ++ text ++ "\x1b[0m"

namespace Diagnostic

/-- Severity and code. -/
def heading (d : Diagnostic) : String :=
  d.severity.text ++ "[" ++ d.code.text ++ "]"

/-- The line about the chip, if there is one. -/
def chipLine (d : Diagnostic) : String :=
  match d.chip with
  | some c => "  --> chip " ++ c.text ++ "\n"
  | none => ""

/-- The line of a label. -/
def labelLine (l : Label) : String :=
  "   | " ++ l.chip.text ++ ": " ++ l.message ++ "\n"

/-- The lines of a diagnostic: heading, chip, labels, notes, help. -/
def render (d : Diagnostic) (colour : Bool) : String :=
  let heading := if colour then d.severity.paint d.heading else d.heading
  heading ++ ": " ++ d.message ++ "\n" ++ d.chipLine ++
    String.join (d.labels.map labelLine) ++
    String.join (d.notes.map fun note => "   = note: " ++ note ++ "\n") ++
    String.join (d.help.map fun help => "   = help: " ++ help ++ "\n")

end Diagnostic

/-- Every diagnostic of a log, one after another. -/
def Log.render (l : Log) (colour : Bool) : String :=
  String.join (l.diagnostics.map fun d => d.render colour)

end Multicast
