import QuantumCircuit.Circuit.Query

/-!
# Named circuits

A circuit under a name, with an edit for each common instruction.
-/

namespace QuantumCircuit

structure NamedCircuit where
  name : String
  circuit : Circuit := .empty
deriving DecidableEq, Repr

namespace NamedCircuit

def ofSize (name : String) (qubits clbits : Nat) : NamedCircuit := ⟨name, .ofSize qubits clbits⟩

def append (c : NamedCircuit) (i : Instruction) : Except CircuitError NodeId × NamedCircuit :=
  let (result, circuit) := c.circuit.append i
  (result, { c with circuit })

def gate (c : NamedCircuit) (g : Gate) (qs : List Qubit) := c.append (.gate g qs)

def h (c : NamedCircuit) (q : Qubit) := c.append (.gateOn .h q)

def x (c : NamedCircuit) (q : Qubit) := c.append (.gateOn .x q)

def z (c : NamedCircuit) (q : Qubit) := c.append (.gateOn .z q)

def rz (c : NamedCircuit) (angle : Angle) (q : Qubit) := c.append (.gateOn (.rz angle) q)

def cx (c : NamedCircuit) (control target : Qubit) := c.append (.gateAcross .cx control target)

def cz (c : NamedCircuit) (control target : Qubit) := c.append (.gateAcross .cz control target)

def measure (c : NamedCircuit) (q : Qubit) (b : Clbit) := c.append (.measure q b)

def reset (c : NamedCircuit) (q : Qubit) := c.append (.reset q)

def barrier (c : NamedCircuit) (qs : List Qubit) := c.append (.barrier qs)

def delay (c : NamedCircuit) (q : Qubit) (duration : UInt64) := c.append (.delay q duration)

end NamedCircuit

end QuantumCircuit
