import WaitFor.Encoding.Scenario
import WaitFor.Encoding.Submission
import WaitFor.Graph.Audit
import WaitFor.Main
import WaitFor.Program
import WaitFor.Proofs.Encoding.Declared
import WaitFor.Proofs.Encoding.RoundTrip
import WaitFor.Proofs.Events.Bindings
import WaitFor.Proofs.Graph.Digraph
import WaitFor.Proofs.Graph.Reordering
import WaitFor.Proofs.Graph.Searches
import WaitFor.Proofs.Graph.Tracing
import WaitFor.Proofs.Graph.Wavefront
import WaitFor.Proofs.Layer.Registration
import WaitFor.Proofs.Monitor.Circles
import WaitFor.Proofs.Monitor.History
import WaitFor.Proofs.Monitor.Isolation
import WaitFor.Proofs.Monitor.Unused
import WaitFor.Proofs.Monitor.Usage
import WaitFor.Proofs.Program.Exit
import WaitFor.Proofs.Simulation.Bookkeeping
import WaitFor.Proofs.Simulation.Custody
import WaitFor.Proofs.Text.Descriptions
import WaitFor.Text
