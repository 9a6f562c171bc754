import QuantumCircuit.Angle

/-!
# Gates

The standard gates, with their short names and the number of qubits each acts on.
-/

namespace QuantumCircuit

inductive Gate where
  | identity
  | x
  | y
  | z
  | h
  | s
  | sdg
  | t
  | tdg
  | sx
  | rx (angle : Angle)
  | ry (angle : Angle)
  | rz (angle : Angle)
  | cx
  | cz
  | swap
  | ccx
deriving DecidableEq, Repr, Inhabited

namespace Gate

def name : Gate → String
  | identity => "id"
  | x => "x"
  | y => "y"
  | z => "z"
  | h => "h"
  | s => "s"
  | sdg => "sdg"
  | t => "t"
  | tdg => "tdg"
  | sx => "sx"
  | rx _ => "rx"
  | ry _ => "ry"
  | rz _ => "rz"
  | cx => "cx"
  | cz => "cz"
  | swap => "swap"
  | ccx => "ccx"

def arity : Gate → Nat
  | cx | cz | swap => 2
  | ccx => 3
  | _ => 1

def angle? : Gate → Option Angle
  | rx a | ry a | rz a => some a
  | _ => none

/-- The same gate, by angles that agree as numbers. -/
def agrees : Gate → Gate → Bool
  | rx a, rx b => a.agrees b
  | ry a, ry b => a.agrees b
  | rz a, rz b => a.agrees b
  | g, g' => g == g'

end Gate

end QuantumCircuit
