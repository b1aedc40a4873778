import Multicast.Machine.Basic
import Multicast.Collection.Heap
import Multicast.Growth.Spread
import Multicast.Repair.Repair
import Multicast.Table.Delivery
import Multicast.Table.Encoding
import Multicast.Digest.Fingerprint
import Multicast.Cost.PathTree
import Multicast.Pipeline.Route
import Multicast.Diagnostic.Render
import Multicast.Json.Reader
import Multicast.Json.Printer
import Multicast.Toml.Document
import Multicast.Config.Reader
import Multicast.Json.Forms
import Multicast.Guard.Grid
import Multicast.Guard.Tree
import Multicast.Proofs.Search.Walk
import Multicast.Proofs.Tree.Edges
import Multicast.Proofs.Tree.Forest
import Multicast.Proofs.Tree.Proper
import Multicast.Proofs.Machine.Paths
import Multicast.Proofs.Repair.Detour
import Multicast.Proofs.Repair.Pieces
import Multicast.Proofs.Repair.Cut
import Multicast.Proofs.Entity.Delivery
import Multicast.Proofs.Pipeline.Complete
import Multicast.Proofs.Pipeline.Order
import Multicast.Proofs.Traffic.Partition
import Multicast.Proofs.Pipeline.Demands
import Multicast.Proofs.Cost.Accuracy
import Multicast.Proofs.Repair.Possible
import Multicast.Proofs.Pipeline.Space
import Multicast.Proofs.Geometry.Distance
import Multicast.Proofs.Growth.StraightRuns
import Multicast.Proofs.Growth.Laid
import Multicast.Proofs.Growth.Shape
import Multicast.Proofs.Repair.Again
import Multicast.Proofs.Table.Defaultable
import Multicast.Proofs.Table.Flatten
import Multicast.Proofs.Repair.Endless
import Multicast.Proofs.Entity.Corridor
import Multicast.Proofs.Cost.Agreement
import Multicast.Proofs.Entity.LocalTree
import Multicast.Proofs.Entity.Nets
import Multicast.Proofs.Machine.Kills
import Multicast.Proofs.Config.Usable
import Multicast.Proofs.Table.Bytes
import Multicast.Proofs.Config.Compact
import Multicast.Proofs.Growth.OffGrid
import Multicast.Proofs.Entity.Halts
import Multicast.Proofs.Pipeline.OffMachine
import Multicast.Proofs.Geometry.Spiral
import Multicast.Proofs.Entity.Places
import Multicast.Proofs.Tree.Walks
