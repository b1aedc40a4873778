import Multicast.Collection.Distinct
import Multicast.Traffic.Endpoint
import Multicast.Traffic.Partition

/-!
# `Multicast.Traffic.Net`: multicast groups

A net is one source with its sinks. `Net.of` keeps the first of repeated sinks
and their order.
-/

set_option autoImplicit false

namespace Multicast

/-- One multicast group: the endpoint that sends and those that receive. -/
structure Net where
  partition : Partition
  source : Endpoint
  sinks : List Endpoint
deriving DecidableEq, Inhabited

namespace Net

/-- The net with repeated sinks left out. -/
def of (partition : Partition) (source : Endpoint) (sinks : List Endpoint) : Net :=
  { partition, source, sinks := distinct sinks }

/-- The chips of the sinks, each once, in the order of the sinks. -/
def sinkChips (n : Net) : List Chip :=
  distinct (n.sinks.map Endpoint.chip)

/-- The chip of the source, then the chips of the sinks. -/
def chips (n : Net) : List Chip :=
  n.source.chip :: n.sinkChips

end Net

end Multicast
