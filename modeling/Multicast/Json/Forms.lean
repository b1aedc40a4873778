import Multicast.Diagnostic.Basic
import Multicast.Digest.Fingerprint
import Multicast.Entity.Graph
import Multicast.Geometry.HopVector
import Multicast.Json.Form

/-!
# `Multicast.Json.Forms`: the JSON forms of the library's types

Fields have their order here. Nothing is checked beyond what the types say: a net
read from JSON may repeat sinks, and a tree may be broken.
-/

set_option autoImplicit false

namespace Multicast.Json.Form

/-- Numbers of 32 bits. -/
def word : Form Nat := below UInt32.size

/-- Numbers of 8 bits. -/
def byte : Form UInt8 := (below 256).via UInt8.toNat UInt8.ofNat

/-- Chips. -/
def chip : Form Chip :=
  { write := fun c => .record [("x", .ofNat c.x), ("y", .ofNat c.y)]
    read := fun v => do
      match ← recordFields ["x", "y"] v with
      | [x, y] => return ⟨← word.required x, ← word.required y⟩
      | _ => none }

/-- Links, by name. -/
def direction : Form Direction :=
  .names [("East", .east), ("NorthEast", .northEast), ("North", .north), ("West", .west),
    ("SouthWest", .southWest), ("South", .south)]

/-- Ways out of a chip. -/
def route : Form Route :=
  { write := fun
      | .link d => .choice "Link" (direction.write d)
      | .core c => .choice "Core" (byte.write c)
    read := fun v =>
      match choice? v with
      | some ("Link", some content) => (direction.read content).map .link
      | some ("Core", some content) => (byte.read content).map .core
      | _ => none }

/-- Reads the two fields of an endpoint. -/
def readPlace {α : Type} (field : String) (form : Form α) (v : Value) : Option (Chip × α) := do
  match ← recordFields ["chip", field] v with
  | [c, a] => return (← chip.required c, ← form.required a)
  | _ => none

/-- Endpoints. -/
def endpoint : Form Endpoint :=
  { write := fun
      | .core c n => .choice "Physical" (.record [("chip", chip.write c), ("core", byte.write n)])
      | .device c d =>
        .choice "Virtual" (.record [("chip", chip.write c), ("link", direction.write d)])
    read := fun v =>
      match choice? v with
      | some ("Physical", some content) =>
        (readPlace "core" byte content).map fun (c, n) => .core c n
      | some ("Virtual", some content) =>
        (readPlace "link" direction content).map fun (c, d) => .device c d
      | _ => none }

/-- Partitions, as their numbers. -/
def partition : Form Partition :=
  word.via (fun p => p.number.toNat) fun n => ⟨UInt32.ofNat n⟩

/-- Nets. -/
def net : Form Net :=
  { write := fun n => .record [("partition", partition.write n.partition),
      ("source", endpoint.write n.source), ("sinks", (list endpoint).write n.sinks)]
    read := fun v => do
      match ← recordFields ["partition", "source", "sinks"] v with
      | [p, source, sinks] =>
        return ⟨← partition.required p, ← endpoint.required source,
          ← (list endpoint).required sinks⟩
      | _ => none }

/-- Hop vectors. -/
def hopVector : Form HopVector :=
  { write := fun v => .record [("x", .ofInt v.x), ("y", .ofInt v.y), ("z", .ofInt v.z)]
    read := fun v => do
      match ← recordFields ["x", "y", "z"] v with
      | [x, y, z] => return ⟨← signed.required x, ← signed.required y, ← signed.required z⟩
      | _ => none }

/-- What an edge leads to. -/
def child : Form Child :=
  { write := fun
      | .node n => .choice "Node" (word.write n)
      | .terminal e => .choice "Terminal" (endpoint.write e)
    read := fun v =>
      match choice? v with
      | some ("Node", some content) => (word.read content).map .node
      | some ("Terminal", some content) => (endpoint.read content).map .terminal
      | _ => none }

/-- Edges, as lists of a route or `null` and a child. -/
def edge : Form Edge :=
  (pair (optional route) child).via (fun e => (e.route, e.child)) fun p => ⟨p.1, p.2⟩

/-- Nodes of a tree. -/
def node : Form Node :=
  { write := fun n =>
      .record [("chip", chip.write n.chip), ("children", (list edge).write n.edges.toList)]
    read := fun v => do
      match ← recordFields ["chip", "children"] v with
      | [c, edges] => return ⟨← chip.required c, (← (list edge).required edges).toArray⟩
      | _ => none }

/-- Trees. -/
def tree : Form RouteTree :=
  { write := fun t =>
      .record [("nodes", (list node).write t.nodes.toList), ("root", word.write t.root)]
    read := fun v => do
      match ← recordFields ["nodes", "root"] v with
      | [nodes, root] => return ⟨(← (list node).required nodes).toArray, ← word.required root⟩
      | _ => none }

/-- Entries; links and cores may come in any order and more than once. -/
def entry : Form Entry :=
  { write := fun e => .record [("outgoing_links", (list direction).write e.links),
      ("outgoing_cores", (list byte).write e.cores),
      ("incoming_link", (optional direction).write e.incomingLink),
      ("incoming_core", (optional byte).write e.incomingCore)]
    read := fun v => do
      match ← recordFields ["outgoing_links", "outgoing_cores", "incoming_link",
          "incoming_core"] v with
      | [links, cores, link, core] =>
        return Entry.of (← (list direction).required links) (← (list byte).required cores)
          (← direction.absent link) (← byte.absent core)
      | _ => none }

/-- Tables, of which only empty ones have a form: a chip cannot name a field. -/
def tables : Form Tables :=
  { write := fun _ => .record [("entries", .object [])]
    read := fun v => do
      match ← recordFields ["entries"] v with
      | [some (.object [])] => return .empty
      | _ => none }

/-- Entity graphs. -/
def entityGraph : Form EntityGraph :=
  { write := fun g => .record [("entities", (list (list endpoint)).write g.entities)]
    read := fun v => do
      match ← recordFields ["entities"] v with
      | [entities] => return ⟨← (list (list endpoint)).required entities⟩
      | _ => none }

/-- Demands. -/
def demand : Form Demand :=
  { write := fun d => .record [("partition", partition.write d.partition),
      ("source", word.write d.source), ("targets", (list word).write d.targets)]
    read := fun v => do
      match ← recordFields ["partition", "source", "targets"] v with
      | [p, source, targets] =>
        return ⟨← partition.required p, ← word.required source, ← (list word).required targets⟩
      | _ => none }

/-- Severities, by name. -/
def severity : Form Severity :=
  .names [("Note", .note), ("Warning", .warning), ("Error", .error)]

/-- Categories, by name. -/
def category : Form Category :=
  .names [("Error", .error), ("Warning", .warning), ("Fault", .fault), ("Config", .config),
    ("Note", .note)]

/-- Codes. -/
def code : Form Code :=
  { write := fun c => .record [("category", category.write c.category), ("number", .ofNat c.number)]
    read := fun v => do
      match ← recordFields ["category", "number"] v with
      | [c, n] => return ⟨← category.required c, ← (below UInt16.size).required n⟩
      | _ => none }

/-- Labels. -/
def label : Form Label :=
  { write := fun l => .record [("chip", chip.write l.chip), ("message", string.write l.message)]
    read := fun v => do
      match ← recordFields ["chip", "message"] v with
      | [c, message] => return ⟨← chip.required c, ← string.required message⟩
      | _ => none }

/-- Diagnostics. -/
def diagnostic : Form Diagnostic :=
  { write := fun d => .record [("severity", severity.write d.severity), ("code", code.write d.code),
      ("message", string.write d.message), ("chip", (optional chip).write d.chip),
      ("labels", (list label).write d.labels), ("notes", (list string).write d.notes),
      ("help", (list string).write d.help)]
    read := fun v => do
      match ← recordFields ["severity", "code", "message", "chip", "labels", "notes", "help"] v with
      | [s, c, message, place, labels, notes, help] =>
        return ⟨← severity.required s, ← code.required c, ← string.required message,
          ← chip.absent place, ← (list label).required labels, ← (list string).required notes,
          ← (list string).required help⟩
      | _ => none }

/-- Fingerprints, as lists of sixteen numbers. -/
def fingerprint : Form Fingerprint :=
  { write := fun f => (list byte).write f.bytes
    read := fun v => do
      let bytes ← (list byte).read v
      if bytes.length = 16 then some ⟨bytes⟩ else none }

end Multicast.Json.Form
