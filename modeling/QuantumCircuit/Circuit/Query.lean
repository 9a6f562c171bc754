import QuantumCircuit.Circuit.Basic
import QuantumCircuit.Graph.Order

/-!
# Questions about a circuit

Listings, counts, the operations on a wire, the read-out of all operations in dependency
order, and the depth.
-/

namespace QuantumCircuit.Circuit

/-! ## Wires -/

def outputEnds (c : Circuit) : List (Wire × NodeId) :=
  sortBy (fun a b => a.1.le b.1) c.outputs

def wires (c : Circuit) : List Wire := Wire.sort (c.inputs.map (·.1))

def qubits (c : Circuit) : List Qubit :=
  sortBy (fun q r => q.id ≤ r.id) (c.inputs.filterMap (·.1.qubit?))

def clbits (c : Circuit) : List Clbit :=
  sortBy (fun a b => a.id ≤ b.id) (c.inputs.filterMap (·.1.clbit?))

def qubitCount (c : Circuit) : Nat := c.inputs.countP (·.1.isQubit)

def clbitCount (c : Circuit) : Nat := c.inputs.length - c.qubitCount

/-! ## Operations -/

def opsWhere (c : Circuit) (p : Instruction → Bool) : List NodeId :=
  c.graph.nodes.filter fun n => (c.instruction? n).any p

def opCount (c : Circuit) : Nat := c.graph.nodeCount - 2 * c.inputs.length

def countNamed (c : Circuit) (name : String) : Nat := (c.opsWhere (·.name == name)).length

/-- Follows `w` from `n` as long as there are operations. More than `steps` of them mean
that the wire has no end. -/
def walk (c : Circuit) (w : Wire) : (steps : Nat) → NodeId → Except CircuitError (List NodeId)
  | steps, n =>
    match c.instruction? n with
    | none => .ok []
    | some _ =>
      match steps with
      | 0 => .error (.malformed (.endless w))
      | steps + 1 => do
        let rest ← c.walk w steps (← c.next n w)
        return n :: rest

/-- The operations on `w` from its input end to its output end. -/
def nodesOn (c : Circuit) (w : Wire) : Except CircuitError (List NodeId) :=
  match c.input? w with
  | none => .error (.malformed (.noInput w))
  | some start => do c.walk w c.graph.nodeCount (← c.next start w)

def opsOn (c : Circuit) (w : Wire) : Except CircuitError (List Instruction) := do
  return (← c.nodesOn w).filterMap c.instruction?

/-- All operations, each after those it depends on. -/
def readOut (c : Circuit) : List (NodeId × Instruction) :=
  (c.graph.topologicalOrder?.getD []).filterMap fun n => (c.instruction? n).map (n, ·)

def weight (c : Circuit) (n : NodeId) : Nat := if (c.instruction? n).isSome then 1 else 0

/-- The number of operations on a longest chain of dependencies. -/
def depth (c : Circuit) : Nat :=
  ((c.graph.levels c.weight (c.graph.topologicalOrder?.getD [])).map (·.2)).foldr max 0

/-! ## Listing the graph -/

def nodes (c : Circuit) : List (NodeId × Node) :=
  c.graph.nodes.filterMap fun n => (c.node? n).map (n, ·)

def edgeLe (e f : Edge Wire) : Bool :=
  e.source < f.source || e.source == f.source &&
    (e.target < f.target || e.target == f.target && e.label.le f.label)

def edges (c : Circuit) : List (Edge Wire) := sortBy edgeLe c.graph.edges

end QuantumCircuit.Circuit
