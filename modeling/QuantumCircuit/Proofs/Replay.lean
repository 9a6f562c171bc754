import QuantumCircuit.Proofs.Counts
import QuantumCircuit.Proofs.Depth
import QuantumCircuit.Proofs.Histories

/-!
# Rebuilding a circuit

A circuit holds a program if the program lists its instructions in one of its linear orders.
The operations on each wire, the counts and the depth can be told from any program that a
circuit holds, so they come out the same when that program is appended to empty wires, whatever
numbers and edges the circuit has been left with.
-/

namespace QuantumCircuit

namespace Circuit

/-- The instructions are those of the circuit, in one of its linear orders. -/
def Holds (c : Circuit) (is : List Instruction) : Prop :=
  ∃ ops l, c.Wired ops ∧ c.Linear ops l ∧ l.filterMap c.instruction? = is

/-- The circuits agree on all that can be asked without naming a node. -/
structure Alike (c d : Circuit) : Prop where
  opsOn : ∀ w, c.opsOn w = d.opsOn w
  opCount : c.opCount = d.opCount
  countNamed : ∀ name, c.countNamed name = d.countNamed name
  depth : c.depth = d.depth

variable {c d : Circuit} {ops : Wire → List NodeId} {is js : List Instruction} {i : Instruction}

theorem Wired.holds_readOut (h : c.Wired ops) : c.Holds (c.readOut.map (·.2)) :=
  ⟨ops, _, h, h.linear_readOut, (readOut_map_snd c).symm⟩

/-! ## What a program tells of a circuit that holds it -/

namespace Holds

theorem opsOn_eq (h : c.Holds is) {w : Wire} (hw : c.hasWire w) :
    c.opsOn w = .ok (is.filter (w ∈ ·.wires)) := by
  obtain ⟨ops, l, hc, hl, rfl⟩ := h
  have hon : l.filterMap (fun n => if n ∈ ops w then c.instruction? n else none) =
      (ops w).filterMap c.instruction? := by
    rw [← hl.on_wire w, List.filterMap_filter, hl.on_wire w]
    simp only [decide_eq_true_eq]
  rw [hc.opsOn_eq hw, ← hon, List.filter_filterMap]
  congr 1
  apply List.filterMap_congr
  intro n _
  have hmem := hc.mem_ops w n
  cases hi : c.instruction? n with
  | none => simp
  | some i =>
    rw [hi] at hmem
    by_cases hwi : w ∈ i.wires
    · simp [Option.filter, hmem, hwi]
    · simp [Option.filter, hmem, hwi]

theorem length_opsWhere (h : c.Holds is) (p : Instruction → Bool) :
    (c.opsWhere p).length = is.countP p := by
  obtain ⟨ops, l, hc, hl, rfl⟩ := h
  have hperm : (c.opsWhere p).Perm (l.filter fun n => (c.instruction? n).any p) := by
    rw [List.perm_ext_iff_of_nodup (c.nodup_opsWhere p) (hl.nodup.filter _)]
    intro n
    rw [mem_opsWhere, List.mem_filter, hl.mem_iff, Option.any_eq_true]
    grind
  rw [hperm.length_eq, List.countP_filterMap, List.countP_eq_length_filter]
  congr 2
  funext n
  cases c.instruction? n <;> rfl

theorem opCount_eq (h : c.Holds is) : c.opCount = is.length := by
  obtain ⟨ops, l, hc, -⟩ := id h
  rw [hc.opCount_eq, h.length_opsWhere, List.countP_true]

theorem depth_eq (h : c.Holds is) : c.depth = layersOf is := by
  obtain ⟨ops, l, hc, hl, rfl⟩ := h
  exact hc.depth_eq hl

theorem alike (hc : c.Holds is) (hd : d.Holds is) (hw : ∀ w, c.hasWire w = d.hasWire w) :
    c.Alike d where
  opsOn := by
    intro w
    by_cases hcw : c.hasWire w
    · rw [hc.opsOn_eq hcw, hd.opsOn_eq (hw w ▸ hcw)]
    · rw [opsOn_eq_error hcw, opsOn_eq_error (hw w ▸ hcw)]
  opCount := by rw [hc.opCount_eq, hd.opCount_eq]
  countNamed := by
    intro name
    rw [countNamed, countNamed, hc.length_opsWhere, hd.length_opsWhere]
  depth := by rw [hc.depth_eq, hd.depth_eq]

end Holds

/-! ## Appending a program -/

theorem refusal?_congr (hw : ∀ w, c.hasWire w = d.hasWire w) (i : Instruction) :
    c.refusal? i = d.refusal? i := by
  simp only [refusal?, hw]

theorem Holds.append (h : c.Holds js) (hi : c.refusal? i = none) :
    ∃ n c', c.append i = (.ok n, c') ∧ c'.Holds (js ++ [i]) ∧ ∀ w, c'.hasWire w = c.hasWire w := by
  obtain ⟨ops, l, hc, hl, rfl⟩ := h
  obtain ⟨n, c', heq, s⟩ := hc.append_spec hi
  exact ⟨n, c', heq, ⟨_, _, s.wired hc hi, s.linear hl, s.filterMap_instruction? hl⟩, s.hasWire⟩

theorem Holds.appendAll : ∀ (is : List Instruction) {c : Circuit} {js : List Instruction},
    c.Holds js → (c.appendAll is).Holds (js ++ is.filter fun i => (c.refusal? i).isNone) ∧
      ∀ w, (c.appendAll is).hasWire w = c.hasWire w
  | [], c, js, h => ⟨by simpa [Circuit.appendAll] using h, fun _ => rfl⟩
  | i :: is, c, js, h => by
    rw [Circuit.appendAll, List.foldl_cons, ← Circuit.appendAll]
    cases hi : c.refusal? i with
    | some e =>
      rw [append_of_refusal hi, List.filter_cons_of_neg (by simp [hi])]
      exact Holds.appendAll is h
    | none =>
      obtain ⟨n, c', heq, h', hw⟩ := h.append hi
      obtain ⟨hall, hwires⟩ := Holds.appendAll is h'
      rw [heq, List.filter_cons_of_pos (by simp [hi])]
      refine ⟨?_, fun w => (hwires w).trans (hw w)⟩
      simpa [refusal?_congr hw] using hall

theorem Holds.takesAll : ∀ (is : List Instruction) {c : Circuit} {js : List Instruction},
    c.Holds js → (∀ i ∈ is, c.refusal? i = none) → c.takesAll is
  | [], _, _, _, _ => rfl
  | i :: is, c, js, h, his => by
    obtain ⟨n, c', heq, h', hw⟩ := h.append (his i (by simp))
    rw [Circuit.takesAll, heq]
    refine Holds.takesAll is h' ?_
    intro j hj
    rw [refusal?_congr hw]
    exact his j (by simp [hj])

theorem hasWire_ofWires (ws : List Wire) (w : Wire) : (ofWires ws).hasWire w ↔ w ∈ ws := by
  have hadd : ∀ (ws : List Wire) {c : Circuit} {ops : Wire → List NodeId}, c.Wired ops →
      ((ws.foldl addWire c).hasWire w ↔ c.hasWire w ∨ w ∈ ws) := by
    intro ws
    induction ws with
    | nil => simp
    | cons v ws ih =>
      intro c ops h
      rw [List.foldl_cons, ih (h.addWire v), h.hasWire_addWire, List.mem_cons, or_assoc]
  rw [ofWires, hadd ws .empty]
  simp [Circuit.empty, hasWire, input?]

theorem holds_ofWires (ws : List Wire) : (ofWires ws).Holds [] :=
  ⟨_, _, (wired_ofWires ws).1, (wired_ofWires ws).2, rfl⟩

end Circuit

/-- **Appending the read-out to the same wires rebuilds the circuit**: each instruction is taken
in, and every wire, every count and the depth come out as they were. -/
theorem replay_rebuilds_circuit {c : Circuit} (hc : c.Reachable) (ws : List Wire)
    (hws : ∀ w, w ∈ ws ↔ c.hasWire w) :
    (Circuit.ofWires ws).takesAll (c.readOut.map (·.2)) ∧
      ((Circuit.ofWires ws).appendAll (c.readOut.map (·.2))).Alike c := by
  obtain ⟨ops, h⟩ := hc.wired
  have hwires : ∀ w, (Circuit.ofWires ws).hasWire w = c.hasWire w := by
    intro w
    rw [Bool.eq_iff_iff, Circuit.hasWire_ofWires, hws]
  have htaken : ∀ i ∈ c.readOut.map (·.2), (Circuit.ofWires ws).refusal? i = none := by
    intro i hi
    obtain ⟨⟨n, i⟩, hp, rfl⟩ := List.mem_map.mp hi
    rw [Circuit.refusal?_congr hwires]
    exact h.accepted n i (Circuit.mem_readOut hp)
  have hempty := Circuit.holds_ofWires ws
  obtain ⟨hall, hsame⟩ := Circuit.Holds.appendAll (c.readOut.map (·.2)) hempty
  rw [List.nil_append, List.filter_eq_self.mpr fun i hi => by rw [htaken i hi]; rfl] at hall
  refine ⟨hempty.takesAll _ htaken, hall.alike h.holds_readOut ?_⟩
  exact fun w => (hsame w).trans (hwires w)

def reworked : Circuit :=
  Call.applyAll (V := fun _ : Empty => Unit) (Circuit.ofSize 2 1)
    [.append (.gateOn .h ⟨0⟩), .append (.gateAcross .cx ⟨0⟩ ⟨1⟩), .append (.reset ⟨0⟩),
      .append (.reset ⟨0⟩), .remove 6, .append (.measure ⟨1⟩ ⟨0⟩), .append (.barrier []),
      .mergeResets .empty]

theorem replay_rebuilds_reworked :
    let ws : List Wire := [.clbit ⟨0⟩, .qubit ⟨1⟩, .qubit ⟨0⟩]
    let is := reworked.readOut.map (·.2)
    let d := (Circuit.ofWires ws).appendAll is
    reworked.Reachable ∧ reworked ≠ d ∧ (Circuit.ofWires ws).takesAll is ∧
      d.opsOn (.qubit ⟨0⟩) = .ok [.gateAcross .cx ⟨0⟩ ⟨1⟩, .reset ⟨0⟩] ∧ d.opCount = 4 ∧
      d.countNamed "measure" = 1 ∧ d.depth = 2 := by
  intro ws is d
  have hreach : reworked.Reachable := Call.reachable_applyAll _ (Circuit.reachable_ofSize 2 1)
  have hinputs : reworked.inputs.map (·.1) = [.qubit ⟨0⟩, .qubit ⟨1⟩, .clbit ⟨0⟩] := by
    decide +kernel
  obtain ⟨htaken, halike⟩ := replay_rebuilds_circuit hreach ws (by
    intro w
    rw [Circuit.hasWire_iff, hinputs]
    simp only [ws, List.mem_cons]
    grind)
  refine ⟨hreach, by decide +kernel, htaken, ?_, ?_, ?_, ?_⟩
  · rw [halike.opsOn]; rfl
  · rw [halike.opCount]; rfl
  · rw [halike.countNamed]; decide +kernel
  · rw [halike.depth]; decide +kernel

end QuantumCircuit
