import QuantumCircuit.Circuit.Check
import QuantumCircuit.TypedStore

/-!
# Passes

A pass looks at a circuit and may edit it. Passes share a store of properties: the statistics
of the reset cleanup under a key of their own, and under any further keys whatever the
program at hand wants to hand from one pass to another. What a pass does on the way is told
by events.
-/

namespace QuantumCircuit

/-- The counters are words of 64 bits and wrap around. -/
structure CleanupStats where
  finalRemoved : UInt64 := 0
  duplicateRemoved : UInt64 := 0
deriving DecidableEq, Repr, Inhabited

namespace CleanupStats

def total (s : CleanupStats) : UInt64 := s.finalRemoved + s.duplicateRemoved

def addFinal (s : CleanupStats) (n : UInt64) : CleanupStats :=
  { s with finalRemoved := s.finalRemoved + n }

def addDuplicate (s : CleanupStats) (n : UInt64) : CleanupStats :=
  { s with duplicateRemoved := s.duplicateRemoved + n }

end CleanupStats

/-! ## Properties -/

inductive PropertyKey (κ : Type) where
  | cleanup
  | custom (k : κ)
deriving DecidableEq, Repr

abbrev PropertyKey.Value {κ : Type} (V : κ → Type) : PropertyKey κ → Type
  | .cleanup => CleanupStats
  | .custom k => V k

abbrev Properties {κ : Type} (V : κ → Type) := TypedStore (PropertyKey.Value V)

/-! ## Errors and events -/

inductive PassError where
  | circuit (e : CircuitError)
  | failed (pass reason : String)
  | badConfiguration (reason : String)
deriving DecidableEq, Repr

namespace PassError

def message : PassError → String
  | circuit e => "IR error: " ++ e.message
  | failed pass reason => "Pass '" ++ pass ++ "' failed: " ++ reason
  | badConfiguration reason => "Invalid pass configuration: " ++ reason

end PassError

inductive Event where
  | started (passes qubits : Nat)
  | skipped (pass : String)
  | running (pass : String)
  | completed (pass : String) (ops : Nat)
  | finished (ops : Nat)
  | removedDuplicate (w : Wire)
  | keptWide (n : NodeId) (qubits : Nat)
  | removedFinal (w : Wire)
  | keptWideFinal (w : Wire) (qubits : Nat)
deriving DecidableEq, Repr

namespace Event

def line : Event → String
  | started passes qubits =>
    "INFO Running pass manager with " ++ toString passes ++ " passes on circuit with " ++
      toString qubits ++ " qubits"
  | skipped pass => "DEBUG Skipping pass: " ++ pass
  | running pass => "DEBUG Running pass: " ++ pass
  | completed pass ops => "DEBUG Pass " ++ pass ++ " completed, ops: " ++ toString ops
  | finished ops => "INFO Pass manager completed, ops: " ++ toString ops
  | removedDuplicate w => "DEBUG Removed duplicate reset wire=" ++ w.label
  | keptWide n qubits =>
    "WARN Skipping reset that does not act on exactly one qubit node=" ++ showNode n ++
      " qubits=" ++ toString qubits
  | removedFinal w => "DEBUG Removed final reset wire=" ++ w.label
  | keptWideFinal w qubits =>
    "WARN Skipping final reset that does not act on exactly one qubit wire=" ++ w.label ++
      " qubits=" ++ toString qubits

end Event

/-! ## Passes -/

inductive PassKind where
  | analysis
  | transformation
deriving DecidableEq, Repr

/-- What a run leaves behind: its result, the circuit and the properties after it, and the
events on the way, the earliest first. After a failure these are as they were at that point. -/
structure Outcome {κ : Type} (V : κ → Type) where
  result : Except PassError Unit
  circuit : Circuit
  properties : Properties V
  log : List Event := []

def Outcome.after {κ : Type} {V : κ → Type} (events : List Event) (o : Outcome V) : Outcome V :=
  { o with log := events ++ o.log }

structure Pass {κ : Type} (V : κ → Type) where
  name : String
  kind : PassKind := .transformation
  /-- Whether a pipeline runs the pass on this circuit with these properties. -/
  applies : Circuit → Properties V → Bool := fun _ _ => true
  run : Circuit → Properties V → Outcome V

end QuantumCircuit
