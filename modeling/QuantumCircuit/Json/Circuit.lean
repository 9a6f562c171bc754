import QuantumCircuit.Circuit.Basic
import QuantumCircuit.Json.Form

/-!
# Written forms of the parts of a circuit

Wires, gates, operations, instructions, nodes, and what an edge says of itself.
-/

namespace QuantumCircuit

open Json

instance : Form Qubit where
  write q := Form.write q.id
  read := return ⟨← Form.read⟩

instance : Form Clbit where
  write b := Form.write b.id
  read := return ⟨← Form.read⟩

/-! ## Wires -/

namespace Wire

def variants : List (Variant Wire) :=
  [⟨"Qubit", .one (return qubit (← Form.read))⟩, ⟨"Clbit", .one (return clbit (← Form.read))⟩]

end Wire

instance : Form Wire where
  write
    | .qubit q => tagged "Qubit" (Form.write q)
    | .clbit b => tagged "Clbit" (Form.write b)
  read := Variant.read Wire.variants

/-- An edge as written: the wire that it is part of. -/
structure Link where
  wire : Wire
deriving DecidableEq, Repr

namespace Link

def record : Record (Option Wire) Link where
  title := "struct DagEdge"
  fields := [.of "wire" id fun _ w => some w]
  blank := none
  build s := return ⟨← required "wire" s⟩

end Link

instance : Form Link where
  write l := object [("wire", Form.write l.wire)]
  read := Link.record.read

/-! ## Gates and operations -/

namespace Gate

def tag : Gate → String
  | identity => "I"
  | x => "X"
  | y => "Y"
  | z => "Z"
  | h => "H"
  | s => "S"
  | sdg => "Sdg"
  | t => "T"
  | tdg => "Tdg"
  | sx => "SX"
  | rx _ => "Rx"
  | ry _ => "Ry"
  | rz _ => "Rz"
  | cx => "CX"
  | cz => "CZ"
  | swap => "Swap"
  | ccx => "CCX"

def beforeRotations : List Gate := [identity, x, y, z, h, s, sdg, t, tdg, sx]

def afterRotations : List Gate := [cx, cz, swap, ccx]

def fixed (g : Gate) : Variant Gate := ⟨g.tag, .none g⟩

def rotation (tag : String) (make : Angle → Gate) : Variant Gate :=
  ⟨tag, .one (return make (← Form.read))⟩

def variants : List (Variant Gate) :=
  beforeRotations.map fixed ++
    [rotation "Rx" rx, rotation "Ry" ry, rotation "Rz" rz] ++ afterRotations.map fixed

end Gate

instance : Form Gate where
  write g :=
    match g.angle? with
    | some a => tagged g.tag (Form.write a)
    | none => Json.name g.tag
  read := Variant.read Gate.variants

namespace Operation

def delayRecord : Record (Option UInt64) Operation where
  title := "struct variant InstructionKind::Delay"
  fields := [.of "duration" id fun _ d => some d]
  blank := none
  build s := return delay (← required "duration" s)

def variants : List (Variant Operation) :=
  [⟨"Gate", .one (return gate (← Form.read))⟩, ⟨"Measure", .none measure⟩,
    ⟨"Reset", .none reset⟩, ⟨"Barrier", .none barrier⟩, ⟨"Delay", .fields delayRecord.read⟩]

end Operation

instance : Form Operation where
  write
    | .gate g => tagged "Gate" (Form.write g)
    | .measure => Json.name "Measure"
    | .reset => Json.name "Reset"
    | .barrier => Json.name "Barrier"
    | .delay d => tagged "Delay" (object [("duration", Form.write d)])
  read := Variant.read Operation.variants

/-! ## Instructions and nodes -/

namespace Instruction

structure Parts where
  op : Option Operation := none
  qubits : Option (List Qubit) := none
  clbits : Option (List Clbit) := none

def record : Record Parts Instruction where
  title := "struct Instruction"
  fields :=
    [.of "kind" (·.op) fun p o => { p with op := some o },
      .of "qubits" (·.qubits) fun p qs => { p with qubits := some qs },
      .of "clbits" (·.clbits) fun p bs => { p with clbits := some bs }]
  blank := {}
  build p := return {
    op := ← required "kind" p.op
    qubits := ← required "qubits" p.qubits
    clbits := ← required "clbits" p.clbits }

end Instruction

instance : Form Instruction where
  write i := object
    [("kind", Form.write i.op), ("qubits", Form.write i.qubits), ("clbits", Form.write i.clbits)]
  read := Instruction.record.read

namespace Node

def variants : List (Variant Node) :=
  [⟨"In", .one (return input (← Form.read))⟩, ⟨"Out", .one (return output (← Form.read))⟩,
    ⟨"Op", .one (return op (← Form.read))⟩]

end Node

instance : Form Node where
  write
    | .input w => tagged "In" (Form.write w)
    | .output w => tagged "Out" (Form.write w)
    | .op i => tagged "Op" (Form.write i)
  read := Variant.read Node.variants

end QuantumCircuit
