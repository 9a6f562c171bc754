import QuantumCircuit.Circuit.Query

/-!
# Checking the structure of a circuit

`Circuit.check` looks for a cycle, for wires that lack an end, for wires that do not lead
from one end to the other, and for operations that are not exactly once on each of their
wires. It reports the first defect it finds.
-/

namespace QuantumCircuit.Circuit

/-- The defect met on the way along `w` from `n` to `out` in at most `steps` steps. -/
def routeDefect? (c : Circuit) (w : Wire) (out : NodeId) : (steps : Nat) → NodeId → Option Defect
  | steps, n =>
    if n = out then none
    else
      match c.next n w with
      | .error _ => some (.broken w n)
      | .ok m =>
        match steps with
        | 0 => some (.tooManySteps w)
        | steps + 1 => c.routeDefect? w out steps m

def wireDefect? (c : Circuit) (w : Wire) (input : NodeId) : Option Defect :=
  match c.output? w with
  | none => some (.inputOnly w)
  | some out => c.routeDefect? w out c.graph.nodeCount input

def degreeDefect? (c : Circuit) (n : NodeId) (i : Instruction) : Option Defect :=
  i.wires.findSome? fun w =>
    let ins := (c.graph.incoming n).countP (·.label == w)
    let outs := (c.graph.outgoing n).countP (·.label == w)
    if ins = 1 ∧ outs = 1 then none else some (.edgeCounts i.name n ins outs w)

def defect? (c : Circuit) : Option Defect :=
  (if c.graph.topologicalOrder?.isSome then none else some .cycle)
  <|> (c.inputs.find? fun p => (c.output? p.1).isNone).map (.inputOnly ·.1)
  <|> (c.outputs.find? fun p => (c.input? p.1).isNone).map (.outputOnly ·.1)
  <|> c.inputs.findSome? (fun p => c.wireDefect? p.1 p.2)
  <|> c.graph.nodes.findSome? fun n => (c.instruction? n).bind (c.degreeDefect? n)

def check (c : Circuit) : Except CircuitError Unit :=
  match c.defect? with
  | none => .ok ()
  | some d => .error (.malformed d)

end QuantumCircuit.Circuit
