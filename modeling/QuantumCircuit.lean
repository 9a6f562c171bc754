import QuantumCircuit.Circuit.Named
import QuantumCircuit.Json.Circuit
import QuantumCircuit.Json.Cleanup
import QuantumCircuit.Pass.Script
import QuantumCircuit.Proofs.Search
import QuantumCircuit.Proofs.Thread
import QuantumCircuit.Proofs.Wiring
import QuantumCircuit.Proofs.Edits
import QuantumCircuit.Proofs.Reachable
import QuantumCircuit.Proofs.Resets
import QuantumCircuit.Proofs.Cleanup
import QuantumCircuit.Proofs.Histories
import QuantumCircuit.Proofs.ReadOut
import QuantumCircuit.Proofs.Meaning
import QuantumCircuit.Proofs.Programs
import QuantumCircuit.Proofs.Statistics
import QuantumCircuit.Proofs.Trimming
import QuantumCircuit.Proofs.Settled
import QuantumCircuit.Proofs.Checks
import QuantumCircuit.Proofs.Depth
import QuantumCircuit.Proofs.Replay
import QuantumCircuit.Proofs.DependencyOrder
import QuantumCircuit.Proofs.LocalEdits
import QuantumCircuit.Proofs.Reorder
import QuantumCircuit.Proofs.Validation
import QuantumCircuit.Proofs.Snapshots
import QuantumCircuit.Proofs.LongestChain
import QuantumCircuit.Proofs.Neighbours
import QuantumCircuit.Proofs.Tallies
import QuantumCircuit.Proofs.DepthChange
import QuantumCircuit.Proofs.Merging
import QuantumCircuit.Proofs.Isolation
import QuantumCircuit.Proofs.Spelling
import QuantumCircuit.Proofs.Layout
import QuantumCircuit.Proofs.ReadBack
import QuantumCircuit.Proofs.WrittenForms
import QuantumCircuit.Proofs.OptionTexts
import QuantumCircuit.Proofs.Listings
