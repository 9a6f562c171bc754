import QuantumCircuit.Proofs.Removal

/-!
# Reachable circuits

A circuit is reachable if edits lead to it from the empty one, whether each of them succeeds
or is refused. Reachable circuits are wired.
-/

namespace QuantumCircuit.Circuit

open Relation

/-- The circuit after the instructions have been appended in turn, those it refuses left out. -/
def appendAll (c : Circuit) (is : List Instruction) : Circuit := is.foldl (fun c i => (c.append i).2) c

/-- One edit of a circuit, which may have been refused. -/
inductive Edit : Circuit → Circuit → Prop
  | addQubit (c : Circuit) (q : Qubit) : Edit c (c.addQubit q)
  | addClbit (c : Circuit) (b : Clbit) : Edit c (c.addClbit b)
  | append (c : Circuit) (i : Instruction) : Edit c (c.append i).2
  | remove (c : Circuit) (n : NodeId) : Edit c (c.remove n).2

def Reachable (c : Circuit) : Prop := ReflTransGen Edit .empty c

variable {c c' : Circuit} {ops : Wire → List NodeId}

theorem Edit.wired (h : Edit c c') (hc : c.Wired ops) : ∃ ops', c'.Wired ops' := by
  cases h with
  | addQubit q => exact ⟨ops, hc.addWire _⟩
  | addClbit b => exact ⟨ops, hc.addWire _⟩
  | append i =>
    cases hi : c.refusal? i with
    | none =>
      obtain ⟨n, c', heq, s⟩ := hc.append_spec hi
      rw [heq]
      exact ⟨_, s.wired hc hi⟩
    | some e =>
      rw [append_of_refusal hi]
      exact ⟨ops, hc⟩
  | remove n =>
    cases hn : c.instruction? n with
    | none =>
      rw [(remove_of_not_op hn).1]
      exact ⟨ops, hc⟩
    | some i =>
      obtain ⟨c', heq, s⟩ := hc.remove_spec hn
      rw [heq]
      exact ⟨_, s.wired⟩

theorem Reachable.wired (h : c.Reachable) : ∃ ops, c.Wired ops := by
  induction h with
  | refl => exact ⟨_, Wired.empty⟩
  | tail _ hstep ih =>
    obtain ⟨ops, hc⟩ := ih
    exact hstep.wired hc

theorem Reachable.foldl {α : Type} {step : Circuit → α → Circuit}
    (hstep : ∀ c a, ReflTransGen Edit c (step c a)) (as : List α) (hc : c.Reachable) :
    (as.foldl step c).Reachable := by
  induction as generalizing c with
  | nil => exact hc
  | cons a as ih => exact ih (hc.trans (hstep c a))

theorem reachable_ofSize (qubits clbits : Nat) : (ofSize qubits clbits).Reachable := by
  have hq : Reachable ((List.range qubits).foldl (fun c k => c.addQubit ⟨UInt32.ofNat k⟩) empty) :=
    Reachable.foldl (fun c _ => .single (.addQubit c _)) _ .refl
  exact hq.foldl (fun c _ => .single (.addClbit c _)) _

theorem Reachable.appendAll (is : List Instruction) (hc : c.Reachable) : (c.appendAll is).Reachable :=
  hc.foldl (fun c i => .single (.append c i)) is

end QuantumCircuit.Circuit
