import QuantumCircuit.Circuit.Error
import QuantumCircuit.Instruction

/-!
# Circuits

A circuit is a graph whose edges are labelled by wires. Each wire runs from an input end
through the operations that act on it to an output end. Instructions are appended at the
output ends of their wires, and an operation can be taken out again, which joins its two
neighbours on each of its wires.

An edit gives its result together with the circuit after it, whether it succeeds or not.
-/

namespace QuantumCircuit

inductive Node where
  | input (w : Wire)
  | output (w : Wire)
  | op (i : Instruction)
deriving DecidableEq, Repr

namespace Node

def isInput : Node → Bool
  | input _ => true
  | _ => false

def isOutput : Node → Bool
  | output _ => true
  | _ => false

def instruction? : Node → Option Instruction
  | op i => some i
  | _ => none

def isOp (n : Node) : Bool := n.instruction?.isSome

def isReset (n : Node) : Bool := n.instruction?.any (·.isReset)

end Node

structure Circuit where
  graph : Graph Node Wire := {}
  inputs : List (Wire × NodeId) := []
  outputs : List (Wire × NodeId) := []
deriving DecidableEq, Repr

def firstRepeat? {α : Type} [DecidableEq α] (xs : List α) : Option α :=
  go [] xs
where
  go (seen : List α) : List α → Option α
    | [] => none
    | x :: rest => if x ∈ seen then some x else go (x :: seen) rest

namespace Circuit

def empty : Circuit := {}

def node? (c : Circuit) (n : NodeId) : Option Node := c.graph.node? n

def instruction? (c : Circuit) (n : NodeId) : Option Instruction :=
  (c.node? n).bind Node.instruction?

def input? (c : Circuit) (w : Wire) : Option NodeId := c.inputs.lookup w

def output? (c : Circuit) (w : Wire) : Option NodeId := c.outputs.lookup w

def hasWire (c : Circuit) (w : Wire) : Bool := (c.input? w).isSome

/-! ## Adding wires -/

/-- A new wire joins its two ends directly. A wire the circuit has already is left as it is. -/
def addWire (c : Circuit) (w : Wire) : Circuit :=
  if c.hasWire w then c
  else
    let (i, g) := c.graph.addNode (.input w)
    let (o, g) := g.addNode (.output w)
    { graph := g.addEdge ⟨i, o, w⟩
      inputs := c.inputs ++ [(w, i)]
      outputs := c.outputs ++ [(w, o)] }

def addQubit (c : Circuit) (q : Qubit) : Circuit := c.addWire (.qubit q)

def addClbit (c : Circuit) (b : Clbit) : Circuit := c.addWire (.clbit b)

def ofSize (qubits clbits : Nat) : Circuit :=
  let c := (List.range qubits).foldl (fun c k => c.addQubit ⟨UInt32.ofNat k⟩) empty
  (List.range clbits).foldl (fun c k => c.addClbit ⟨UInt32.ofNat k⟩) c

/-! ## Neighbours -/

def neighbour (c : Circuit) (d : Direction) (n : NodeId) (w : Wire) : Except CircuitError NodeId :=
  if c.graph.isLive n then
    match (c.graph.edgesAt d n).find? (·.label == w) with
    | some e => .ok (e.far d)
    | none => .error (.notOnWire n w)
  else .error (.deadNode n)

abbrev next (c : Circuit) : NodeId → Wire → Except CircuitError NodeId := c.neighbour .forward

abbrev prev (c : Circuit) : NodeId → Wire → Except CircuitError NodeId := c.neighbour .backward

/-! ## Appending -/

def arityFault? (i : Instruction) : Option CircuitError :=
  match i.gate? with
  | some g =>
    if g.arity = i.qubits.length then none
    else some (.wrongArity g.name g.arity i.qubits.length)
  | none => none

/-- The first reason, if any, for which the circuit does not take the instruction. -/
def refusal? (c : Circuit) (i : Instruction) : Option CircuitError :=
  let gate := i.gate?.map Gate.name
  arityFault? i
  <|> (i.qubits.find? (fun q => !c.hasWire (.qubit q))).map (.qubitNotFound · gate)
  <|> (i.clbits.find? (fun b => !c.hasWire (.clbit b))).map (.clbitNotFound · gate)
  <|> (firstRepeat? i.qubits).map (.repeatedQubit · gate)
  <|> (firstRepeat? i.clbits).map fun b => .malformed (.repeatedClbit b i.name)

def lastEdge? (c : Circuit) (w : Wire) : Option (Edge Wire) :=
  (c.output? w).bind fun out => (c.graph.incoming out).find? (·.label == w)

/-- Puts the node `n` between the output end of each wire and what comes before it. -/
def attach (n : NodeId) : List Wire → Circuit → Except CircuitError NodeId × Circuit
  | [], c => (.ok n, c)
  | w :: ws, c =>
    match c.lastEdge? w with
    | none => (.error (.malformed (.noOutputEdge w)), c)
    | some e =>
      let g := ((c.graph.removeEdge e).addEdge ⟨e.source, n, w⟩).addEdge ⟨n, e.target, w⟩
      attach n ws { c with graph := g }

def append (c : Circuit) (i : Instruction) : Except CircuitError NodeId × Circuit :=
  match c.refusal? i with
  | some e => (.error e, c)
  | none =>
    let (n, g) := c.graph.addNode (.op i)
    attach n i.wires { c with graph := g }

/-! ## Removing -/

def bypasses (c : Circuit) (n : NodeId) : List (Edge Wire) :=
  (c.graph.incoming n).flatMap fun e =>
    ((c.graph.outgoing n).filter (·.label == e.label)).map fun f => ⟨e.source, f.target, e.label⟩

/-- Takes the operation at `n` out and gives its instruction. All other nodes keep their
numbers. -/
def remove (c : Circuit) (n : NodeId) : Except CircuitError Instruction × Circuit :=
  match c.node? n with
  | none => (.error (.deadNode n), c)
  | some (.op i) =>
    let g := (c.bypasses n).foldl Graph.addEdge c.graph
    (.ok i, { c with graph := g.removeNode n })
  | some _ => (.error (.malformed .notAnOperation), c)

end Circuit

end QuantumCircuit
