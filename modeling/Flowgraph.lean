import Flowgraph.Main
import Flowgraph.Order.Check
import Flowgraph.Progress.Display
import Flowgraph.Proofs.Batch.Caching
import Flowgraph.Proofs.Batch.Tracing
import Flowgraph.Proofs.Digest.Framing
import Flowgraph.Proofs.Execution.Forwarding
import Flowgraph.Proofs.Graph.Chains
import Flowgraph.Proofs.Graph.InPlace
import Flowgraph.Proofs.GraphFile.Resolution
import Flowgraph.Proofs.IndexHistories
import Flowgraph.Proofs.Liveness.Termination
import Flowgraph.Proofs.Order.ColdPaths
import Flowgraph.Proofs.Order.Members
import Flowgraph.Proofs.Order.Mirroring
import Flowgraph.Proofs.Order.Nesting
import Flowgraph.Proofs.Order.Postorder
import Flowgraph.Proofs.Progress.Interleaving
import Flowgraph.Proofs.Rebuild.Identity
import Flowgraph.Proofs.Rebuild.Preserved
import Flowgraph.Proofs.Sample.Structured
import Flowgraph.Proofs.Trace.Sinks
import Flowgraph.Rebuild.Edits
import Flowgraph.Sample.Structured
import Flowgraph.Timing.Masking
