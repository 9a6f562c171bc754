import QuantumCircuit.Circuit.Named
import QuantumCircuit.Proofs.Cleanup

/-!
# Histories of circuits

A history is any list of calls: edits, builder calls and runs of the two passes, each of
which may succeed or fail. Through all of them every wire stays one chain from its input
through its operations to its output, so the check accepts the circuit, each wire can be
read and the search for an order of the operations meets no cycle.
-/

namespace QuantumCircuit

open Relation

/-- The edits that a named circuit offers, with their operands. -/
inductive Build where
  | append (i : Instruction)
  | gate (g : Gate) (qs : List Qubit)
  | h (q : Qubit)
  | x (q : Qubit)
  | z (q : Qubit)
  | rz (angle : Angle) (q : Qubit)
  | cx (control target : Qubit)
  | cz (control target : Qubit)
  | measure (q : Qubit) (b : Clbit)
  | reset (q : Qubit)
  | barrier (qs : List Qubit)
  | delay (q : Qubit) (duration : UInt64)

def Build.instruction : Build → Instruction
  | .append i => i
  | .gate g qs => .gate g qs
  | .h q => .gateOn .h q
  | .x q => .gateOn .x q
  | .z q => .gateOn .z q
  | .rz angle q => .gateOn (.rz angle) q
  | .cx control target => .gateAcross .cx control target
  | .cz control target => .gateAcross .cz control target
  | .measure q b => .measure q b
  | .reset q => .reset q
  | .barrier qs => .barrier qs
  | .delay q duration => .delay q duration

def NamedCircuit.call (c : NamedCircuit) : Build → Except CircuitError NodeId × NamedCircuit
  | .append i => c.append i
  | .gate g qs => c.gate g qs
  | .h q => c.h q
  | .x q => c.x q
  | .z q => c.z q
  | .rz angle q => c.rz angle q
  | .cx control target => c.cx control target
  | .cz control target => c.cz control target
  | .measure q b => c.measure q b
  | .reset q => c.reset q
  | .barrier qs => c.barrier qs
  | .delay q duration => c.delay q duration

theorem NamedCircuit.call_eq_append (c : NamedCircuit) (b : Build) : c.call b = c.append b.instruction := by
  cases b <;> rfl

inductive Call {κ : Type} (V : κ → Type) where
  | addQubit (q : Qubit)
  | addClbit (b : Clbit)
  | append (i : Instruction)
  | remove (n : NodeId)
  | build (name : String) (b : Build)
  | mergeResets (p : Properties V)
  | trimResets (p : Properties V)

namespace Call

variable {κ : Type} {V : κ → Type}

def added? : Call V → Option Wire
  | addQubit q => some (.qubit q)
  | addClbit b => some (.clbit b)
  | _ => none

variable [DecidableEq κ]

def apply (c : Circuit) : Call V → Circuit
  | addQubit q => c.addQubit q
  | addClbit b => c.addClbit b
  | append i => (c.append i).2
  | remove n => (c.remove n).2
  | build name b => (NamedCircuit.call ⟨name, c⟩ b).2.circuit
  | mergeResets p => (Pass.mergeResets.run c p).circuit
  | trimResets p => (Pass.trimResets.run c p).circuit

def applyAll (c : Circuit) (calls : List (Call V)) : Circuit := calls.foldl apply c

variable {c : Circuit} {ops : Wire → List NodeId}

theorem edits (c : Circuit) (call : Call V) : ReflTransGen Circuit.Edit c (call.apply c) := by
  cases call with
  | addQubit q => exact .single (.addQubit c q)
  | addClbit b => exact .single (.addClbit c b)
  | append i => exact .single (.append c i)
  | remove n => exact .single (.remove c n)
  | build name b =>
    rw [apply, NamedCircuit.call_eq_append]
    exact .single (.append c b.instruction)
  | mergeResets p => exact Pass.mergeResets_editsOnly c p
  | trimResets p => exact Pass.trimResets_editsOnly c p

theorem hasWire_apply (h : c.Wired ops) (call : Call V) (w : Wire) :
    (call.apply c).hasWire w ↔ c.hasWire w ∨ call.added? = some w := by
  cases call with
  | addQubit q =>
    rw [apply, Circuit.addQubit, h.hasWire_addWire, added?, Option.some_inj, eq_comm (a := w)]
  | addClbit b =>
    rw [apply, Circuit.addClbit, h.hasWire_addWire, added?, Option.some_inj, eq_comm (a := w)]
  | append i => simp [apply, added?, h.hasWire_append]
  | remove n => simp [apply, added?, h.hasWire_remove]
  | build name b => simp [apply, added?, NamedCircuit.call_eq_append, NamedCircuit.append, h.hasWire_append]
  | mergeResets p =>
    obtain ⟨ds, -, s⟩ := h.mergeResets_cuts
    simp [apply, added?, (h.run_mergeResets p).2, s.hasWire]
  | trimResets p =>
    obtain ⟨ds, -, s⟩ := h.trimResets_cuts
    simp [apply, added?, (h.run_trimResets p).2, s.hasWire]

theorem reachable_applyAll (calls : List (Call V)) (hc : c.Reachable) : (applyAll c calls).Reachable :=
  hc.foldl (fun c call => call.edits c) calls

theorem hasWire_applyAll : ∀ (calls : List (Call V)) {c : Circuit}, c.Reachable → ∀ w,
    (applyAll c calls).hasWire w ↔ c.hasWire w ∨ ∃ call ∈ calls, call.added? = some w
  | [], _, _, w => by simp [applyAll]
  | call :: calls, c, hc, w => by
    obtain ⟨ops, h⟩ := hc.wired
    have ih := hasWire_applyAll calls (hc.trans (call.edits c)) w
    rw [applyAll, List.foldl_cons, ← applyAll, ih, call.hasWire_apply h]
    simp [or_assoc]

end Call

/-! ## Chains -/

namespace Circuit

/-- The edges of `w` form one simple path from `i` over `l` to `o`: it starts at the input of
the wire, ends at its output, and passes through exactly the operations on the wire. -/
structure Chain (c : Circuit) (w : Wire) (i : NodeId) (l : List NodeId) (o : NodeId) : Prop where
  input : c.input? w = some i ∧ c.node? i = some (.input w)
  output : c.output? w = some o ∧ c.node? o = some (.output w)
  edges : (c.graph.edges.filter (·.label == w)).Perm (pathEdges w (i :: (l ++ [o])))
  nodup : (i :: (l ++ [o])).Nodup
  mem_iff : ∀ n, n ∈ l ↔ ∃ j, c.node? n = some (.op j) ∧ w ∈ j.wires

/-- Every wire is a chain, no edge lies on another wire, and the chains close no cycle. -/
structure Chained (c : Circuit) : Prop where
  keys : (c.inputs.map (·.1)).Nodup
  same_keys : c.outputs.map (·.1) = c.inputs.map (·.1)
  chain : ∀ w, c.hasWire w → ∃ i l o, c.Chain w i l o
  no_more : ∀ e ∈ c.graph.edges, c.hasWire e.label
  acyclic : c.graph.Acyclic

variable {c : Circuit} {ops : Wire → List NodeId}

theorem Wired.chain_ops (h : c.Wired ops) {w : Wire} {i o : NodeId} (hi : c.input? w = some i)
    (ho : c.output? w = some o) : c.Chain w i (ops w) o := by
  have ht : c.track ops w = i :: (ops w ++ [o]) := by simp [track, hi, ho]
  refine ⟨⟨hi, (h.input_iff w i).mp hi⟩, ⟨ho, (h.output_iff w o).mp ho⟩, ?_, ?_, ?_⟩
  · rw [← ht]; exact h.threaded w
  · rw [← ht]; exact h.nodup_track w
  · intro n
    simp only [h.mem_ops, instruction?_eq_some]

theorem Wired.chain (h : c.Wired ops) {w : Wire} (hw : c.hasWire w) :
    ∃ i l o, c.Chain w i l o := by
  obtain ⟨i, o, hi, ho, -⟩ := h.ends hw
  exact ⟨i, ops w, o, h.chain_ops hi ho⟩

theorem Wired.chained (h : c.Wired ops) : c.Chained where
  keys := h.keys
  same_keys := h.same_keys
  chain := fun _ => h.chain
  no_more := by
    intro e he
    by_contra hw
    have hmem := h.threaded.near_mem .forward he
    rw [h.track_eq_nil hw] at hmem
    cases hmem
  acyclic := h.acyclic

end Circuit

/-- **Every history leaves each wire one chain**, on the wires that it began with and those
that it added. -/
theorem histories_keep_chains {κ : Type} [DecidableEq κ] {V : κ → Type} {c₀ : Circuit}
    (h₀ : c₀ = .empty ∨ ∃ name qubits clbits, c₀ = (NamedCircuit.ofSize name qubits clbits).circuit)
    (calls : List (Call V)) :
    let c := Call.applyAll c₀ calls
    c.Chained ∧
      (∀ w, c.hasWire w ↔ c₀.hasWire w ∨ ∃ call ∈ calls, call.added? = some w) ∧
      c.check = .ok () ∧
      (∀ w, c.hasWire w → ∃ is, c.opsOn w = .ok is) ∧
      c.graph.topologicalOrder?.isSome := by
  have hr₀ : c₀.Reachable := by
    rcases h₀ with rfl | ⟨name, qubits, clbits, rfl⟩
    · exact .refl
    · exact Circuit.reachable_ofSize qubits clbits
  obtain ⟨ops, h⟩ := (Call.reachable_applyAll calls hr₀).wired
  exact ⟨h.chained, Call.hasWire_applyAll calls hr₀, h.check_eq_ok, fun w hw => ⟨_, h.opsOn_eq hw⟩,
    h.topologicalOrder?_isSome⟩

theorem mixed_history_keeps_chains :
    let calls : List (Call fun _ : Empty => Unit) :=
      [.build "t" (.cx ⟨0⟩ ⟨1⟩), .remove 0, .remove 6, .append ⟨.reset, [⟨0⟩, ⟨0⟩], []⟩,
        .append (.measure ⟨1⟩ ⟨0⟩), .build "t" (.reset ⟨1⟩), .addQubit ⟨7⟩,
        .build "t" (.cz ⟨0⟩ ⟨7⟩), .trimResets .empty]
    let c := Call.applyAll (NamedCircuit.ofSize "t" 2 1).circuit calls
    c.Chained ∧ c.hasWire (.qubit ⟨7⟩) ∧ c.opsOn (.qubit ⟨1⟩) = .ok [.measure ⟨1⟩ ⟨0⟩] ∧
      c.opsOn (.qubit ⟨7⟩) = .ok [.gateAcross .cz ⟨0⟩ ⟨7⟩] := by
  intro calls c
  obtain ⟨hchained, hwires, -⟩ := histories_keep_chains (.inr ⟨"t", 2, 1, rfl⟩) calls
  exact ⟨hchained, (hwires _).mpr (.inr ⟨.addQubit ⟨7⟩, by simp [calls], rfl⟩), rfl, rfl⟩

end QuantumCircuit
