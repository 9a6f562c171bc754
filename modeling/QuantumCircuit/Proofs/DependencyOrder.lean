import QuantumCircuit.Proofs.Replay

/-!
# The dependency order

The search starts from the nodes by number, and numbers that were freed are given out again, so
they say nothing about the order on a wire. Still every circuit that edits lead to has a
topological order: each live node comes once, and the source of an edge before its target.
Hence the read-out lists each operation once, those on a wire in the order of the wire.
-/

namespace QuantumCircuit

theorem Graph.Finished.idxOf_lt {α β : Type} {g : Graph α β} : ∀ {order : List NodeId} {a b : NodeId},
    g.Finished order → a ∈ order → g.Adj a b → order.idxOf a < order.idxOf b
  | n :: rest, a, b, h, ha, hab => by
    by_cases han : a = n
    · subst han
      have hb : a ≠ b := fun e => h.1 (e ▸ h.2.1 b hab)
      rw [List.idxOf_cons_self, List.idxOf_cons_ne _ hb]
      exact Nat.succ_pos _
    · have ha' : a ∈ rest := (List.mem_cons.mp ha).resolve_left han
      have hb : n ≠ b := fun e => h.1 (e ▸ h.2.2.mem_of_adj ha' hab)
      rw [List.idxOf_cons_ne _ (Ne.symm han), List.idxOf_cons_ne _ hb]
      exact Nat.succ_lt_succ (idxOf_lt h.2.2 ha' hab)

namespace Circuit

variable {c : Circuit} {ops : Wire → List NodeId}

theorem Wired.mem_readOut_iff (h : c.Wired ops) {n : NodeId} {i : Instruction} :
    (n, i) ∈ c.readOut ↔ c.instruction? n = some i := by
  refine ⟨mem_readOut, fun hi => ?_⟩
  have hn : n ∈ c.readOut.map (·.1) := (h.linear_readOut.mem_iff n).mpr (by rw [hi]; rfl)
  obtain ⟨⟨m, j⟩, hmem, rfl⟩ := List.mem_map.mp hn
  have hj := mem_readOut hmem
  rw [hi] at hj
  cases hj
  exact hmem

theorem Wired.count_readOut (h : c.Wired ops) (n : NodeId) (i : Instruction) :
    c.readOut.count (n, i) = if c.node? n = some (.op i) then 1 else 0 := by
  have hd : c.readOut.Nodup := h.linear_readOut.nodup.of_map
  rw [hd.count]
  simp only [h.mem_readOut_iff, instruction?_eq_some]

end Circuit

/-- **The topological order is complete and agrees with the wires.** There always is one. It lists
each live node once and nothing else, and no edge leads backwards in it. So each operation is read
out once, with its own instruction, and the instructions on a wire are read out as they stand
on it. -/
theorem topologicalOrder_lists_every_node {c : Circuit} (hc : c.Reachable) :
    (∃ order, c.graph.topologicalOrder? = some order ∧
      (∀ n, order.count n = if c.graph.isLive n then 1 else 0) ∧
      ∀ e ∈ c.graph.edges, e.target ∈ order ∧ order.idxOf e.source < order.idxOf e.target) ∧
    (∀ n i, c.readOut.count (n, i) = if c.node? n = some (.op i) then 1 else 0) ∧
    (∀ w, c.hasWire w → c.opsOn w = .ok ((c.readOut.map (·.2)).filter (w ∈ ·.wires))) ∧
    ∀ p ∈ c.readOut, ∀ w ∈ p.2.wires, c.hasWire w := by
  obtain ⟨ops, h⟩ := hc.wired
  obtain ⟨horder, hf, hp⟩ := Graph.topologicalOrder?_eq_some h.acyclic h.closed
  have hlive : ∀ n, n ∈ c.graph.searchOrder ↔ c.graph.isLive n := fun n =>
    hp.mem_iff.trans Graph.mem_nodes
  refine ⟨⟨_, horder, ?_, ?_⟩, h.count_readOut, fun w hw => h.holds_readOut.opsOn_eq hw, ?_⟩
  · intro n
    rw [hf.nodup.count]
    simp only [hlive]
  · intro e he
    obtain ⟨hs, ht⟩ := h.closed e he
    exact ⟨(hlive _).mpr ht, hf.idxOf_lt ((hlive _).mpr hs) ⟨e, he, rfl, rfl⟩⟩
  · intro p hp w hw
    have hmem : p.1 ∈ ops w := (h.mem_ops w p.1).mpr ⟨p.2, Circuit.mem_readOut hp, hw⟩
    exact h.hasWire_of_mem_ops hmem

theorem topologicalOrder_of_reworked :
    reworked.Reachable ∧ reworked.nodesOn (.qubit ⟨1⟩) = .ok [7, 6] ∧
      (∃ order, reworked.graph.topologicalOrder? = some order ∧ order.count 6 = 1 ∧
        order.count 8 = 0 ∧ order.idxOf 7 < order.idxOf 6) ∧
      reworked.readOut.count (6, .measure ⟨1⟩ ⟨0⟩) = 1 ∧
      (reworked.readOut.map (·.2)).filter (.qubit ⟨1⟩ ∈ ·.wires) =
        [.gateAcross .cx ⟨0⟩ ⟨1⟩, .measure ⟨1⟩ ⟨0⟩] := by
  have hreach : reworked.Reachable := Call.reachable_applyAll _ (Circuit.reachable_ofSize 2 1)
  obtain ⟨⟨order, horder, hcount, hedge⟩, hread, hwire, -⟩ := topologicalOrder_lists_every_node hreach
  have hlive : reworked.graph.isLive 6 ∧ ¬ reworked.graph.isLive 8 := by decide +kernel
  have hmem : (⟨7, 6, .qubit ⟨1⟩⟩ : Edge Wire) ∈ reworked.graph.edges := by decide +kernel
  have hops : reworked.opsOn (.qubit ⟨1⟩) = .ok [.gateAcross .cx ⟨0⟩ ⟨1⟩, .measure ⟨1⟩ ⟨0⟩] := by
    decide +kernel
  rw [hwire _ (by decide +kernel)] at hops
  refine ⟨hreach, by decide +kernel, ⟨order, horder, ?_, ?_, (hedge _ hmem).2⟩, ?_, Except.ok.inj hops⟩
  · rw [hcount, if_pos hlive.1]
  · rw [hcount, if_neg hlive.2]
  · rw [hread, if_pos (by decide +kernel)]

end QuantumCircuit
