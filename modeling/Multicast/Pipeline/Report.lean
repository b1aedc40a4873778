import Multicast.Diagnostic.Log
import Multicast.Machine.Basic
import Multicast.Repair.Repair
import Multicast.Table.Tables

/-!
# `Multicast.Pipeline.Report`: what a run tells about itself

Repairs are warnings, a failure is an error, and a run that succeeds ends with a
warning for every chip with more entries than it can hold and a summary.
-/

set_option autoImplicit false

namespace Multicast.Report

/-- The code of a repaired link. -/
def reroutedLink : Code := ⟨.fault, 101⟩

/-- The code of a dead chip left out. -/
def splicedChip : Code := ⟨.fault, 102⟩

/-- The code of a chip with too many entries. -/
def overfullChip : Code := ⟨.warning, 101⟩

/-- The code of the summary. -/
def summary : Code := ⟨.note, 101⟩

/-- The note that names a partition. -/
def partitionNote (p : Partition) : String :=
  "partition " ++ p.text

/-- The warning about an edge that was replaced. -/
def rerouted (p : Partition) (edge : Chip × Chip) : Diagnostic :=
  { Diagnostic.plain .warning reroutedLink
      s!"link from {edge.1.text} to {edge.2.text} is down; rerouted" with
    chip := some edge.1
    labels := [⟨edge.2, "far end of dead link"⟩]
    notes := [partitionNote p] }

/-- The warning about a dead chip that was left out. -/
def spliced (p : Partition) (c : Chip) : Diagnostic :=
  { Diagnostic.plain .warning splicedChip s!"chip {c.text} is dead; spliced out of the tree" with
    chip := some c
    notes := [partitionNote p] }

/-- The warnings about a repair. -/
def ofRepair (p : Partition) (r : RepairReport) : List Diagnostic :=
  r.broken.map (rerouted p) ++ r.dead.map (spliced p)

/-- The diagnostic of a failure. -/
def ofError (e : RouteError) : Diagnostic :=
  { Diagnostic.plain .error e.code e.message with chip := e.chip? }

/-- The warning about a chip with too many entries. -/
def overfull (c : Chip) (count capacity : Nat) : Diagnostic :=
  { Diagnostic.plain .warning overfullChip
      s!"chip {c.text} needs {count} entries but holds {capacity}" with
    chip := some c
    help := ["raise `router_entries` or route with the cost-weighted router"] }

/-- The summary of a run that routed a number of nets. -/
def ofTables (t : Tables) (routed : Nat) : Diagnostic :=
  let entries := s!"{t.entryCount} entries on {t.chipCount} chips"
  Diagnostic.plain .note summary
    s!"routed {routed} net(s): {entries}, at most {t.fullest} per chip"

/-- What a run that succeeded says about its tables. -/
def ofSuccess (t : Tables) (capacity : Chip → Nat) (routed : Nat) : List Diagnostic :=
  (t.overfull capacity).map (fun (c, count) => overfull c count (capacity c)) ++
    [ofTables t routed]

end Multicast.Report
