import QuantumCircuit.Graph.Basic
import QuantumCircuit.Wire

/-!
# Why a circuit refuses

The causes for which a circuit refuses an edit or a question, and their wording.
-/

namespace QuantumCircuit

/-- What is wrong with the structure of a circuit, or with an edit that would break it. -/
inductive Defect where
  | repeatedClbit (b : Clbit) (operation : String)
  | notAnOperation
  | noInput (w : Wire)
  | noOutputEdge (w : Wire)
  | endless (w : Wire)
  | cycle
  | inputOnly (w : Wire)
  | outputOnly (w : Wire)
  | broken (w : Wire) (n : NodeId)
  | tooManySteps (w : Wire)
  | edgeCounts (operation : String) (n : NodeId) (incoming outgoing : Nat) (w : Wire)
  | described (text : String)
deriving DecidableEq, Repr

inductive CircuitError where
  | qubitNotFound (q : Qubit) (gate : Option String)
  | clbitNotFound (b : Clbit) (gate : Option String)
  | malformed (defect : Defect)
  | deadNode (n : NodeId)
  | notOnWire (n : NodeId) (w : Wire)
  | wrongArity (gate : String) (expected got : Nat)
  | repeatedQubit (q : Qubit) (gate : Option String)
deriving DecidableEq, Repr

def showNode (n : NodeId) : String := "NodeIndex(" ++ toString n ++ ")"

namespace Defect

def message : Defect → String
  | repeatedClbit b operation =>
    "Duplicate classical bit " ++ b.label ++ " in operation '" ++ operation ++ "'"
  | notAnOperation => "Cannot remove non-operation node"
  | noInput w => "Wire " ++ w.label ++ " has no input node"
  | noOutputEdge w => "Output node of wire " ++ w.label ++ " has no predecessor"
  | endless w => "Wire " ++ w.label ++ " does not terminate"
  | cycle => "Graph contains a cycle"
  | inputOnly w => "Wire " ++ w.label ++ " has an In node but no Out node"
  | outputOnly w => "Wire " ++ w.label ++ " has an Out node but no In node"
  | broken w n =>
    "Wire " ++ w.label ++ " is broken: no outgoing edge from node " ++ showNode n
  | tooManySteps w => "Wire " ++ w.label ++ " has too many steps (possible infinite loop)"
  | edgeCounts operation n incoming outgoing w =>
    "Operation '" ++ operation ++ "' at " ++ showNode n ++ " has " ++ toString incoming ++
      " incoming and " ++ toString outgoing ++ " outgoing edges on wire " ++ w.label
  | described text => text

end Defect

namespace CircuitError

def gateNote : Option String → String
  | some gate => " (gate: " ++ gate ++ ")"
  | none => ""

def message : CircuitError → String
  | qubitNotFound q gate => "Qubit " ++ q.label ++ " not found in circuit" ++ gateNote gate
  | clbitNotFound b gate =>
    "Classical bit " ++ b.label ++ " not found in circuit" ++ gateNote gate
  | malformed defect => "Invalid DAG structure: " ++ defect.message
  | deadNode n => "Invalid node index " ++ showNode n
  | notOnWire n w => "Node " ++ showNode n ++ " is not on wire " ++ w.label
  | wrongArity gate expected got =>
    "Gate '" ++ gate ++ "' requires " ++ toString expected ++ " qubits, got " ++ toString got
  | repeatedQubit q gate => "Duplicate qubit " ++ q.label ++ " in operation" ++ gateNote gate

end CircuitError

end QuantumCircuit
