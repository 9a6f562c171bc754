import Mathlib.Algebra.BigOperators.Group.List.Basic
import Mathlib.Algebra.GroupWithZero.Nat
import QuantumCircuit.Proofs.DependencyOrder
import QuantumCircuit.Proofs.LocalEdits

/-!
# Counts that agree

Operations are counted by subtraction, by a look at every node, by the read-out and along the
wires. Each edge leads from a node of its wire to the next, so there is one more edge on a wire
than there are operations on it, and the operations on all wires are counted once for each wire of
each operation.
-/

namespace QuantumCircuit

theorem sum_map_ite {β : Type} (p : β → Bool) (bs : List β) :
    (bs.map fun b => if p b then 1 else 0).sum = bs.countP p := by
  induction bs with
  | nil => rfl
  | cons b bs ih => rw [List.map_cons, List.sum_cons, ih, List.countP_cons, Nat.add_comm]

theorem sum_countP_comm {α β : Type} (r : α → β → Bool) (as : List α) (bs : List β) :
    (as.map fun a => bs.countP (r a)).sum = (bs.map fun b => as.countP (r · b)).sum := by
  induction as with
  | nil => simp
  | cons a as ih =>
    simp only [List.map_cons, List.sum_cons, List.countP_cons, List.sum_map_add, sum_map_ite]
    rw [ih, Nat.add_comm]

theorem length_pathEdges {β : Type} (l : β) (a : NodeId) (p : List NodeId) :
    (pathEdges l (a :: p)).length = p.length := by
  induction p generalizing a with
  | nil => rfl
  | cons b p ih => simp [ih]

namespace Circuit

variable {c : Circuit} {ops : Wire → List NodeId} {is : List Instruction}

/-! ## Wires -/

theorem length_wires (c : Circuit) : c.wires.length = c.inputs.length := by
  rw [wires, Wire.sort, (sortBy_perm _ _).length_eq, List.length_map]

theorem mem_wires {w : Wire} : w ∈ c.wires ↔ c.hasWire w := by
  rw [wires, Wire.sort, (sortBy_perm _ _).mem_iff, hasWire_iff]

theorem Wired.nodup_wires (h : c.Wired ops) : c.wires.Nodup :=
  (sortBy_perm _ _).nodup_iff.mpr h.keys

theorem qubitCount_eq (c : Circuit) : c.qubitCount = c.qubits.length := by
  rw [qubits, (sortBy_perm _ _).length_eq, List.length_filterMap_eq_countP, qubitCount]
  congr 1
  funext p
  cases p.1 <;> rfl

theorem clbitCount_eq (c : Circuit) : c.clbitCount = c.clbits.length := by
  have hsplit := List.length_eq_countP_add_countP (fun p : Wire × NodeId => p.1.isQubit) (l := c.inputs)
  have hbits : c.clbits.length = c.inputs.countP fun p => ¬ p.1.isQubit := by
    rw [clbits, (sortBy_perm _ _).length_eq, List.length_filterMap_eq_countP]
    congr 1
    funext p
    cases p.1 <;> rfl
  rw [clbitCount, qubitCount, hbits]
  omega

theorem qubitCount_add_clbitCount (c : Circuit) : c.qubitCount + c.clbitCount = c.wires.length := by
  have hle : c.qubitCount ≤ c.inputs.length := List.countP_le_length
  rw [length_wires, clbitCount]
  omega

/-! ## Operations -/

theorem nodes_instructions (c : Circuit) :
    c.nodes.filterMap (·.2.instruction?) = (c.opsWhere fun _ => true).filterMap c.instruction? := by
  rw [nodes, opsWhere, List.filterMap_filterMap, List.filterMap_filter]
  apply List.filterMap_congr
  intro n _
  unfold instruction?
  cases c.node? n with
  | none => rfl
  | some a => cases a <;> rfl

theorem Wired.perm_instructions (h : c.Wired ops) :
    (c.nodes.filterMap (·.2.instruction?)).Perm (c.readOut.map (·.2)) := by
  rw [nodes_instructions, readOut_map_snd]
  refine List.Perm.filterMap _ ?_
  rw [List.perm_ext_iff_of_nodup (c.nodup_opsWhere _) h.linear_readOut.nodup]
  intro n
  rw [mem_opsWhere, h.linear_readOut.mem_iff, Option.isSome_iff_exists]
  simp

theorem Wired.opCount_eq_countP (h : c.Wired ops) : c.opCount = c.nodes.countP (·.2.isOp) := by
  rw [h.holds_readOut.opCount_eq, ← h.perm_instructions.length_eq, List.length_filterMap_eq_countP]
  rfl

/-! ## Edges -/

theorem Holds.countP_label (h : c.Holds is) {w : Wire} (hw : c.hasWire w) :
    c.graph.edges.countP (w == ·.label) = is.countP (w ∈ ·.wires) + 1 := by
  obtain ⟨ops, -, hc, -⟩ := id h
  obtain ⟨i, o, -, -, ht⟩ := hc.ends hw
  have hrow : (ops w).length = is.countP (w ∈ ·.wires) := by
    have heq := (hc.opsOn_eq hw).symm.trans (h.opsOn_eq hw)
    rw [List.countP_eq_length_filter, ← Except.ok.inj heq,
      length_filterMap_instruction? fun _ => hc.isSome_of_mem_ops]
  simp only [Bool.beq_comm (a := w)]
  rw [List.countP_eq_length_filter, (hc.threaded w).length_eq, ht, length_pathEdges, List.length_append,
    List.length_singleton, hrow]

theorem Holds.edgeCount_eq (h : c.Holds is) :
    c.graph.edgeCount = c.wires.length + (c.wires.map fun w => is.countP (w ∈ ·.wires)).sum := by
  obtain ⟨ops, -, hc, -⟩ := id h
  have hone : ∀ e ∈ c.graph.edges, c.wires.countP (· == e.label) = 1 := by
    intro e he
    exact List.count_eq_one_of_mem hc.nodup_wires (mem_wires.mpr (hc.chained.no_more e he))
  calc c.graph.edgeCount = (c.graph.edges.map fun e => c.wires.countP (· == e.label)).sum := by
        rw [List.map_congr_left hone]
        simp [Graph.edgeCount]
    _ = (c.wires.map fun w => c.graph.edges.countP (w == ·.label)).sum := sum_countP_comm _ _ _
    _ = (c.wires.map fun w => is.countP (w ∈ ·.wires) + 1).sum := by
        rw [List.map_congr_left fun w hw => h.countP_label (mem_wires.mp hw)]
    _ = c.wires.length + (c.wires.map fun w => is.countP (w ∈ ·.wires)).sum := by
        rw [List.sum_map_add]
        simp [Nat.add_comm]

theorem countP_wires {i : Instruction} (hi : c.refusal? i = none) (h : c.wires.Nodup) :
    c.wires.countP (· ∈ i.wires) = i.wires.length := by
  obtain ⟨-, hmem, hd⟩ := refusal?_eq_none.mp hi
  have hperm : (c.wires.filter (· ∈ i.wires)).Perm i.wires := by
    rw [List.perm_ext_iff_of_nodup (h.filter _) hd]
    intro w
    rw [List.mem_filter, mem_wires]
    simpa using hmem w
  rw [List.countP_eq_length_filter, hperm.length_eq]

theorem Holds.sum_countP (h : c.Holds is) :
    (c.wires.map fun w => is.countP (w ∈ ·.wires)).sum = (is.map (·.wires.length)).sum := by
  obtain ⟨ops, l, hc, -, rfl⟩ := h
  rw [sum_countP_comm]
  congr 1
  apply List.map_congr_left
  intro i hi
  obtain ⟨n, -, hn⟩ := List.mem_filterMap.mp hi
  exact countP_wires (hc.accepted n i hn) hc.nodup_wires

end Circuit

/-- **All counts agree.** The wires are listed once each, as many as there are qubits and classical
bits, and the two ends of each are among the nodes, so that the rest are the operations. These are
counted alike by number, by content and in the read-out. There is an edge more on every wire than
operations on it, and the operations on all wires make up the wires of all operations. -/
theorem counts_agree {c : Circuit} (hc : c.Reachable) :
    (c.wires.Nodup ∧ ∀ w, w ∈ c.wires ↔ c.hasWire w) ∧
      (c.qubitCount + c.clbitCount = c.wires.length ∧ c.qubitCount = c.qubits.length ∧
        c.clbitCount = c.clbits.length) ∧
      (c.opCount + 2 * c.wires.length = c.graph.nodeCount ∧ c.opCount = c.nodes.countP (·.2.isOp) ∧
        c.opCount = (c.opsWhere fun _ => true).length ∧ c.opCount = c.readOut.length) ∧
      ∃ row : Wire → List Instruction, (∀ w ∈ c.wires, c.opsOn w = .ok (row w)) ∧
        c.graph.edgeCount = c.wires.length + (c.wires.map fun w => (row w).length).sum ∧
        (c.wires.map fun w => (row w).length).sum =
          ((c.nodes.filterMap (·.2.instruction?)).map (·.wires.length)).sum := by
  obtain ⟨ops, h⟩ := hc.wired
  refine ⟨⟨h.nodup_wires, fun _ => Circuit.mem_wires⟩,
    ⟨c.qubitCount_add_clbitCount, c.qubitCount_eq, c.clbitCount_eq⟩,
    ⟨?_, h.opCount_eq_countP, h.opCount_eq, ?_⟩,
    fun w => (c.readOut.map (·.2)).filter (w ∈ ·.wires), ?_, ?_, ?_⟩
  · rw [c.length_wires, h.nodeCount_eq, h.opCount_eq, Nat.add_comm]
  · rw [h.holds_readOut.opCount_eq, List.length_map]
  · intro w hw
    exact h.holds_readOut.opsOn_eq (Circuit.mem_wires.mp hw)
  · simpa only [← List.countP_eq_length_filter] using h.holds_readOut.edgeCount_eq
  · rw [(h.perm_instructions.map _).sum_eq]
    simpa only [← List.countP_eq_length_filter] using h.holds_readOut.sum_countP

theorem counts_agree_on_braided :
    let c := ((braided.remove 7).2.append (.barrier [])).2
    c.Reachable ∧ c.wires.length = 3 ∧ c.qubitCount + c.clbitCount = 3 ∧ c.opCount = 4 ∧
      c.readOut.length = 4 ∧ c.graph.edgeCount = 9 ∧
      ((c.nodes.filterMap (·.2.instruction?)).map (·.wires.length)).sum = 6 := by
  intro c
  have hreach : c.Reachable := (reachable_braided.tail (.remove _ 7)).tail (.append _ _)
  obtain ⟨-, ⟨hbits, -, -⟩, ⟨-, hops, -, hread⟩, row, -, hedges, hsum⟩ := counts_agree hreach
  have hwires : c.wires.length = 3 := by decide +kernel
  have hnodes : c.nodes.countP (·.2.isOp) = 4 := by decide +kernel
  have hcount : c.graph.edgeCount = 9 := by decide +kernel
  refine ⟨hreach, hwires, hbits.trans hwires, hops.trans hnodes, ?_, hcount, ?_⟩
  · rw [← hread, hops, hnodes]
  · omega

end QuantumCircuit
