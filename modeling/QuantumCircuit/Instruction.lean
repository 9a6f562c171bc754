import QuantumCircuit.Gate
import QuantumCircuit.Wire

/-!
# Instructions

An instruction is an operation together with the qubits and classical bits it acts on.
Nothing ties the operands to the operation here: a circuit decides what it takes in.
-/

namespace QuantumCircuit

inductive Operation where
  | gate (g : Gate)
  | measure
  | reset
  | barrier
  | delay (duration : UInt64)
deriving DecidableEq, Repr

namespace Operation

def gate? : Operation → Option Gate
  | gate g => some g
  | _ => none

def name : Operation → String
  | gate g => g.name
  | measure => "measure"
  | reset => "reset"
  | barrier => "barrier"
  | delay _ => "delay"

def agrees : Operation → Operation → Bool
  | gate g, gate g' => g.agrees g'
  | o, o' => o == o'

end Operation

structure Instruction where
  op : Operation
  qubits : List Qubit
  clbits : List Clbit
deriving DecidableEq, Repr

namespace Instruction

def gate (g : Gate) (qs : List Qubit) : Instruction := ⟨.gate g, qs, []⟩

def gateOn (g : Gate) (q : Qubit) : Instruction := gate g [q]

def gateAcross (g : Gate) (q r : Qubit) : Instruction := gate g [q, r]

def measure (q : Qubit) (b : Clbit) : Instruction := ⟨.measure, [q], [b]⟩

def reset (q : Qubit) : Instruction := ⟨.reset, [q], []⟩

def barrier (qs : List Qubit) : Instruction := ⟨.barrier, qs, []⟩

def delay (q : Qubit) (duration : UInt64) : Instruction := ⟨.delay duration, [q], []⟩

def name (i : Instruction) : String := i.op.name

def gate? (i : Instruction) : Option Gate := i.op.gate?

def isGate (i : Instruction) : Bool := i.gate?.isSome

def isMeasure (i : Instruction) : Bool := i.op = .measure

def isReset (i : Instruction) : Bool := i.op = .reset

def isBarrier (i : Instruction) : Bool := i.op = .barrier

def wires (i : Instruction) : List Wire := i.qubits.map .qubit ++ i.clbits.map .clbit

def agrees (i j : Instruction) : Bool :=
  i.op.agrees j.op && i.qubits == j.qubits && i.clbits == j.clbits

end Instruction

end QuantumCircuit
