import QuantumCircuit.Pass.Basic

/-!
# Cleaning up resets

A reset of one qubit does nothing to the outcome if a reset follows it directly on that
qubit, or if nothing follows it there at all. `Pass.mergeResets` takes out the former,
`Pass.trimResets` the latter, one per qubit and run. A reset that acts on several qubits or
on none is left alone: taking it out would take it off its other wires too.
-/

namespace QuantumCircuit

structure Sweep where
  result : Except CircuitError Unit
  circuit : Circuit
  removed : Nat := 0
  log : List Event := []

namespace Sweep

def done (c : Circuit) : Sweep := { result := .ok (), circuit := c }

def failed (c : Circuit) (e : CircuitError) : Sweep := { result := .error e, circuit := c }

def noting (event : Event) (s : Sweep) : Sweep := { s with log := event :: s.log }

def counting (event : Event) (s : Sweep) : Sweep :=
  { s with removed := s.removed + 1, log := event :: s.log }

end Sweep

namespace Circuit

def isResetAt (c : Circuit) (n : NodeId) : Bool := (c.node? n).any (·.isReset)

/-- Takes out each listed reset of one qubit that a reset follows on its qubit. -/
def mergeResetsAt (c : Circuit) : List NodeId → Sweep
  | [] => .done c
  | n :: rest =>
    match c.instruction? n with
    | none => .failed c (.deadNode n)
    | some i =>
      match i.qubits with
      | [q] =>
        match c.next n (.qubit q) with
        | .error e => .failed c e
        | .ok m =>
          if c.isResetAt m then
            match c.remove n with
            | (.error e, c') => .failed c' e
            | (.ok _, c') => (c'.mergeResetsAt rest).counting (.removedDuplicate (.qubit q))
          else c.mergeResetsAt rest
      | qs => (c.mergeResetsAt rest).noting (.keptWide n qs.length)

/-- Takes out the reset of one qubit, if there is one, at each of the listed output ends of
qubits. -/
def trimResetsAt (c : Circuit) : List (Wire × NodeId) → Sweep
  | [] => .done c
  | (w, out) :: rest =>
    if w.isQubit then
      match c.prev out w with
      | .error e => .failed c e
      | .ok n =>
        match c.instruction? n with
        | none => c.trimResetsAt rest
        | some i =>
          if i.isReset then
            if i.qubits.length = 1 then
              match c.remove n with
              | (.error e, c') => .failed c' e
              | (.ok _, c') => (c'.trimResetsAt rest).counting (.removedFinal w)
            else (c.trimResetsAt rest).noting (.keptWideFinal w i.qubits.length)
          else c.trimResetsAt rest
    else c.trimResetsAt rest

def mergeResets (c : Circuit) : Sweep := c.mergeResetsAt (c.opsWhere (·.isReset))

def trimResets (c : Circuit) : Sweep := c.trimResetsAt c.outputEnds

end Circuit

section
variable {κ : Type} [DecidableEq κ] {V : κ → Type}

def Sweep.outcome (s : Sweep) (add : CleanupStats → UInt64 → CleanupStats) (p : Properties V) :
    Outcome V :=
  match s.result with
  | .error e => { result := .error (.circuit e), circuit := s.circuit, properties := p, log := s.log }
  | .ok () =>
    { result := .ok ()
      circuit := s.circuit
      properties := p.modifyD .cleanup {} (add · (.ofNat s.removed))
      log := s.log }

def Pass.mergeResets : Pass V where
  name := "consolidate_resets"
  run c p := c.mergeResets.outcome CleanupStats.addDuplicate p

def Pass.trimResets : Pass V where
  name := "remove_final_reset"
  run c p := c.trimResets.outcome CleanupStats.addFinal p

end

end QuantumCircuit
