import QuantumCircuit.Proofs.Replay

/-!
# Edits are local

Taking an operation out and appending an instruction leave every other node and both ends of
every wire alone. The edges of each wire still form one chain, which has lost the operation or
has it last, also where several wires run between the same two nodes. A removal that is refused
changes nothing.
-/

namespace QuantumCircuit

namespace Circuit

/-- Every wire keeps its ends, the operations `l` that formed its chain in `c` have become
`change w l` in `c'`, and no edge lies off the wires. -/
structure Rewires (c c' : Circuit) (change : Wire → List NodeId → List NodeId) : Prop where
  ends : ∀ w, c'.input? w = c.input? w ∧ c'.output? w = c.output? w
  chain : ∀ w, c.hasWire w → ∃ i l o, c.Chain w i l o ∧ c.nodesOn w = .ok l ∧
    c'.Chain w i (change w l) o ∧ c'.nodesOn w = .ok (change w l)
  no_more : ∀ e ∈ c'.graph.edges, c.hasWire e.label

variable {c c' : Circuit} {ops ops' : Wire → List NodeId} {i : Instruction} {n : NodeId}

theorem Wired.rewires (h : c.Wired ops) (h' : c'.Wired ops') (hin : ∀ w, c'.input? w = c.input? w)
    (hout : ∀ w, c'.output? w = c.output? w) {change : Wire → List NodeId → List NodeId}
    (hops : ∀ w, ops' w = change w (ops w)) : c.Rewires c' change := by
  have hwire : ∀ w, c'.hasWire w = c.hasWire w := fun w => by rw [hasWire, hasWire, hin]
  refine ⟨fun w => ⟨hin w, hout w⟩, ?_, ?_⟩
  · intro w hw
    obtain ⟨a, o, ha, ho, -⟩ := h.ends hw
    refine ⟨a, ops w, o, h.chain_ops ha ho, h.nodesOn_eq hw, ?_, ?_⟩
    · rw [← hops]
      exact h'.chain_ops ((hin w).trans ha) ((hout w).trans ho)
    · rw [← hops]
      exact h'.nodesOn_eq (by rwa [hwire])
  · intro e he
    rw [← hwire]
    exact h'.chained.no_more e he

theorem Rewires.nodesOn {change : Wire → List NodeId → List NodeId} (s : c.Rewires c' change) {w : Wire}
    {l : List NodeId} (hl : c.nodesOn w = .ok l) : c'.nodesOn w = .ok (change w l) := by
  obtain ⟨a, l', o, -, hl', -, hafter⟩ := s.chain w (hasWire_of_nodesOn hl)
  rw [hl] at hl'
  cases hl'
  exact hafter

end Circuit

/-! ## Removing -/

/-- **Taking out an operation splices one node**: its instruction is returned, it is gone from all
its wires at once, and nothing else moves. The end of a wire and a number that is not in use are
refused, and the circuit stays exactly as it was. -/
theorem remove_splices_one_node {c : Circuit} (hc : c.Reachable) (n : NodeId) :
    match c.node? n with
    | some (.op i) => ∃ c', c.remove n = (.ok i, c') ∧
        (∀ m, c'.node? m = if m = n then none else c.node? m) ∧
        c.Rewires c' fun _ => List.filter (· ≠ n)
    | some _ => c.remove n = (.error (.malformed .notAnOperation), c)
    | none => c.remove n = (.error (.deadNode n), c) := by
  obtain ⟨ops, h⟩ := hc.wired
  cases hn : c.node? n with
  | none => simp only [Circuit.remove, hn]
  | some a =>
    cases a with
    | input w => simp only [Circuit.remove, hn]
    | output w => simp only [Circuit.remove, hn]
    | op i =>
      obtain ⟨c', heq, s⟩ := h.remove_spec (Circuit.instruction?_eq_some.mpr hn)
      refine ⟨c', heq, ?_, h.rewires s.wired s.input? s.output? ?_⟩
      · intro m
        simpa using s.node? m
      · intro w
        simp [Circuit.without]

def braided : Circuit :=
  (Circuit.ofSize 2 1).appendAll [.gateAcross .cx ⟨0⟩ ⟨1⟩, ⟨.reset, [⟨1⟩, ⟨0⟩], [⟨0⟩]⟩,
    .gateAcross .cx ⟨0⟩ ⟨1⟩, .measure ⟨1⟩ ⟨0⟩]

theorem reachable_braided : braided.Reachable := (Circuit.reachable_ofSize 2 1).appendAll _

theorem remove_splices_braided :
    let i : Instruction := ⟨.reset, [⟨1⟩, ⟨0⟩], [⟨0⟩]⟩
    braided.Reachable ∧ braided.node? 7 = some (.op i) ∧
      (∃ c', braided.remove 7 = (.ok i, c') ∧ c'.node? 7 = none ∧ c'.node? 8 = braided.node? 8 ∧
        c'.nodesOn (.qubit ⟨0⟩) = .ok [6, 8] ∧ c'.nodesOn (.qubit ⟨1⟩) = .ok [6, 8, 9] ∧
        c'.nodesOn (.clbit ⟨0⟩) = .ok [9]) ∧
      braided.remove 0 = (.error (.malformed .notAnOperation), braided) ∧
      braided.remove 12 = (.error (.deadNode 12), braided) := by
  intro i
  have h₇ : braided.node? 7 = some (.op i) := by decide +kernel
  have h₀ : braided.node? 0 = some (.input (.qubit ⟨0⟩)) := by decide +kernel
  have h₁₂ : braided.node? 12 = none := by decide +kernel
  have hop := remove_splices_one_node reachable_braided 7
  have hend := remove_splices_one_node reachable_braided 0
  have hdead := remove_splices_one_node reachable_braided 12
  simp only [h₇] at hop
  simp only [h₀] at hend
  simp only [h₁₂] at hdead
  obtain ⟨c', heq, hnode, s⟩ := hop
  refine ⟨reachable_braided, h₇, ⟨c', heq, hnode 7, hnode 8, ?_, ?_, ?_⟩, hend, hdead⟩
  · exact s.nodesOn (l := [6, 7, 8]) (by decide +kernel)
  · exact s.nodesOn (l := [6, 7, 8, 9]) (by decide +kernel)
  · exact s.nodesOn (l := [7, 9]) (by decide +kernel)

/-! ## Appending -/

namespace Circuit

variable {c c' : Circuit} {i : Instruction} {n : NodeId}

theorem mem_edges_of_lastEdge? {w : Wire} {e : Edge Wire} (h : c.lastEdge? w = some e) :
    e ∈ c.graph.edges := by
  obtain ⟨o, -, ho⟩ := Option.bind_eq_some_iff.mp h
  exact List.mem_of_mem_filter (List.mem_of_find?_eq_some ho)

theorem edgeCount_attach {m : NodeId} : ∀ (ws : List Wire) {c c' : Circuit},
    attach n ws c = (.ok m, c') → c'.graph.edgeCount = c.graph.edgeCount + ws.length
  | [], c, c', h => by cases h; rfl
  | w :: ws, c, c', h => by
    rw [attach] at h
    cases he : c.lastEdge? w with
    | none => rw [he] at h; cases h
    | some e =>
      rw [he] at h
      have hmem := mem_edges_of_lastEdge? he
      have hpos := List.length_pos_of_mem hmem
      have ih := edgeCount_attach ws h
      simp only [Graph.edgeCount, Graph.addEdge, Graph.removeEdge, List.length_cons,
        List.length_erase_of_mem hmem] at ih ⊢
      omega

theorem refusal?_of_append (h : c.append i = (.ok n, c')) : c.refusal? i = none := by
  cases hi : c.refusal? i with
  | none => rfl
  | some e => rw [append_of_refusal hi] at h; cases h

theorem Wired.edgeCount_append {ops : Wire → List NodeId} (hc : c.Wired ops) (h : c.append i = (.ok n, c')) :
    c'.graph.edgeCount = c.graph.edgeCount + i.wires.length := by
  have hadd : (c.graph.addNode (.op i)).2.edgeCount = c.graph.edgeCount :=
    congrArg List.length (hc.numbered.addNode (.op i)).edges
  rw [append, refusal?_of_append h] at h
  exact (edgeCount_attach i.wires h).trans (congrArg (· + i.wires.length) hadd)

theorem Wired.opCount_append {ops : Wire → List NodeId} (hc : c.Wired ops) (h : c.append i = (.ok n, c')) :
    c'.opCount = c.opCount + 1 := by
  obtain ⟨m, d, heq, hd, -⟩ := hc.holds_readOut.append (refusal?_of_append h)
  rw [h] at heq
  cases heq
  rw [hd.opCount_eq, hc.holds_readOut.opCount_eq, List.length_append, List.length_singleton]

end Circuit

/-- **An instruction that is taken in comes last on its wires and touches nothing else.** Its
number was not in use, and for each of its wires there is one more edge. -/
theorem append_touches_only_its_wires {c c' : Circuit} (hc : c.Reachable) {i : Instruction} {n : NodeId}
    (h : c.append i = (.ok n, c')) :
    c.node? n = none ∧ (∀ m, c'.node? m = if m = n then some (.op i) else c.node? m) ∧
      (∀ w ∈ i.wires, c.hasWire w) ∧
      (c.Rewires c' fun w l => if w ∈ i.wires then l ++ [n] else l) ∧
      c'.opCount = c.opCount + 1 ∧ c'.graph.edgeCount = c.graph.edgeCount + i.wires.length := by
  obtain ⟨ops, hw⟩ := hc.wired
  have hi := Circuit.refusal?_of_append h
  obtain ⟨m, d, heq, s⟩ := hw.append_spec hi
  rw [h] at heq
  cases heq
  refine ⟨s.fresh, s.node?, (Circuit.refusal?_eq_none.mp hi).2.1, ?_, hw.opCount_append h,
    hw.edgeCount_append h⟩
  exact hw.rewires (s.wired hw hi) s.input? s.output? fun _ => rfl

theorem append_to_braided :
    let c := (braided.remove 7).2
    let i : Instruction := ⟨.barrier, [⟨1⟩, ⟨0⟩], [⟨0⟩]⟩
    let c' := (c.append i).2
    c.Reachable ∧ c.append i = (.ok 7, c') ∧ c'.node? 7 = some (.op i) ∧ c'.node? 9 = c.node? 9 ∧
      c'.nodesOn (.qubit ⟨0⟩) = .ok [6, 8, 7] ∧ c'.nodesOn (.clbit ⟨0⟩) = .ok [9, 7] ∧
      c'.opCount = 4 ∧ c'.graph.edgeCount = 12 := by
  intro c i c'
  have hreach : c.Reachable := reachable_braided.tail (.remove _ 7)
  have hok : (c.append i).1 = .ok 7 := by decide +kernel
  have heq : c.append i = (.ok 7, c') := Prod.ext hok rfl
  obtain ⟨-, hnode, -, s, hops, hedges⟩ := append_touches_only_its_wires hreach heq
  have hcount : c.opCount = 3 ∧ c.graph.edgeCount = 9 := by decide +kernel
  rw [hcount.1] at hops
  rw [hcount.2] at hedges
  refine ⟨hreach, heq, hnode 7, hnode 9, ?_, ?_, hops, hedges⟩
  · exact s.nodesOn (l := [6, 8]) (by decide +kernel)
  · exact s.nodesOn (l := [9]) (by decide +kernel)

end QuantumCircuit
