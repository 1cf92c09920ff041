import CharmRuntime.Queueing.SamePriority
import CharmRuntime.Isomalloc.Accounting
import CharmRuntime.Mempool.Pool
import CharmRuntime.Netlrts.Delivery
import CharmRuntime.Broadcast.SpanningTree
import CharmRuntime.Broadcast.HyperCube
import CharmRuntime.Location.IndexCompressor
import CharmRuntime.Location.Delivery
import CharmRuntime.Location.Rebirth
import CharmRuntime.Location.Keep
import CharmRuntime.Quiescence.Silence
import CharmRuntime.Ampi.Sequence
import CharmRuntime.Ampi.Split
import CharmRuntime.Ampi.Cancel
import CharmRuntime.Reduction.Messages
import CharmRuntime.Datatypes.References
import CharmRuntime.TypeMap.ShortMessages
import CharmRuntime.TopoTree.Edges
import CharmRuntime.ArrayBroadcast.Delivery
import CharmRuntime.CkIO.Writes
import CharmRuntime.Completion.Soundness
import CharmRuntime.Tram.Routes
import CharmRuntime.Multicast.Tree
import CharmRuntime.Multicast.Fragments
import CharmRuntime.BitVector.Compare
import CharmRuntime.TypeMap.Copies
import CharmRuntime.ArrayMap.RoundRobin
import CharmRuntime.LoadBalance.Solutions
import CharmRuntime.Converse.ReductionIDs
import CharmRuntime.Sdag.Forall
import CharmRuntime.Partitions.Bisection
