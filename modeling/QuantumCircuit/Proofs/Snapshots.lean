import QuantumCircuit.Proofs.LocalEdits

/-!
# Taking out a snapshot of operations

A list of operations that was drawn up at one time can be taken out one by one in any order. Each
removal joins neighbours that may be next on the list, so the circuits on the way differ from one
order to another, but in the end the same nodes and the same edges are left, and every wire has
the rest of its operations as they stood.
-/

namespace QuantumCircuit

namespace Circuit

def removeAll (c : Circuit) : List NodeId → List (Except CircuitError Instruction) × Circuit
  | [] => ([], c)
  | n :: ns =>
    let rest := (c.remove n).2.removeAll ns
    ((c.remove n).1 :: rest.1, rest.2)

/-- `results` and `c'` are what comes of taking the operations `ns` out of `c`: each gave the
instruction that it held in `c`, no other node has changed, and the wires lead past them. -/
structure Clears (c : Circuit) (ns : List NodeId) (results : List (Except CircuitError Instruction))
    (c' : Circuit) : Prop where
  results : List.Forall₂ (fun n r => ∃ i, c.instruction? n = some i ∧ r = .ok i) ns results
  node? : ∀ m, c'.node? m = if m ∈ ns then none else c.node? m
  wires : c.Rewires c' fun _ => List.filter (· ∉ ns)

/-- The same nodes under the same numbers, the same ends of wires and the same edges. The edges
may have come in another order, and so may the numbers that are free. -/
structure SameUpToOrder (c d : Circuit) : Prop where
  node? : ∀ m, c.node? m = d.node? m
  inputs : c.inputs = d.inputs
  outputs : c.outputs = d.outputs
  edges : c.graph.edges.Perm d.graph.edges
  nodesOn : ∀ w, c.nodesOn w = d.nodesOn w

variable {c c₁ c₂ : Circuit} {ops : Wire → List NodeId} {ns ms : List NodeId}

theorem Wired.removeAll_spec (h : c.Wired ops) (hd : ns.Nodup)
    (hops : ∀ n ∈ ns, (c.instruction? n).isSome) :
    List.Forall₂ (fun n r => ∃ i, c.instruction? n = some i ∧ r = .ok i) ns (c.removeAll ns).1 ∧
      c.Cuts ops ns (c.removeAll ns).2 := by
  induction ns generalizing c ops with
  | nil => exact ⟨.nil, .nil h⟩
  | cons n ns ih =>
    obtain ⟨hn, hd⟩ := List.nodup_cons.mp hd
    obtain ⟨i, hi⟩ := Option.isSome_iff_exists.mp (hops n (by simp))
    obtain ⟨c', heq, s⟩ := h.remove_spec hi
    -- the rest of the list is as it was: only `n` is gone
    have hkept : ∀ m ∈ ns, c'.instruction? m = c.instruction? m := by
      intro m hm
      have hmn : m ≠ n := fun e => hn (e ▸ hm)
      rw [s.instruction?, if_neg (by simpa using hmn)]
    obtain ⟨hresults, hcuts⟩ := ih s.wired hd fun m hm => by
      rw [hkept m hm]
      exact hops m (by simp [hm])
    unfold removeAll
    rw [heq]
    refine ⟨.cons ⟨i, hi, rfl⟩ ?_, s.trans hcuts⟩
    obtain ⟨hlen, hzip⟩ := List.forall₂_iff_zip.mp hresults
    refine List.forall₂_iff_zip.mpr ⟨hlen, ?_⟩
    intro m r hmr
    obtain ⟨j, hj, rfl⟩ := hzip hmr
    exact ⟨j, (hkept m (List.of_mem_zip hmr).1).symm.trans hj, rfl⟩

theorem Cuts.clears (s : c.Cuts ops ns c₁) (h : c.Wired ops)
    {results : List (Except CircuitError Instruction)}
    (hresults : List.Forall₂ (fun n r => ∃ i, c.instruction? n = some i ∧ r = .ok i) ns results) :
    c.Clears ns results c₁ :=
  ⟨hresults, s.node?, h.rewires s.wired s.input? s.output? fun _ => rfl⟩

theorem Wired.count_edges (h : c.Wired ops) (e : Edge Wire) :
    c.graph.edges.count e = (pathEdges e.label (c.track ops e.label)).count e := by
  rw [← (h.threaded e.label).count_eq e, List.count_filter (by simp)]

theorem Cuts.sameUpToOrder (s₁ : c.Cuts ops ns c₁) (s₂ : c.Cuts ops ns c₂) (h : c.Wired ops) :
    c₁.SameUpToOrder c₂ where
  node? m := (s₁.node? m).trans (s₂.node? m).symm
  inputs := s₁.inputs.trans s₂.inputs.symm
  outputs := s₁.outputs.trans s₂.outputs.symm
  edges := by
    rw [List.perm_iff_count]
    intro e
    rw [s₁.wired.count_edges, s₂.wired.count_edges, s₁.track, s₂.track]
  nodesOn w := (s₁.nodesOn h w).trans (s₂.nodesOn h w).symm

end Circuit

/-- **A snapshot of operations can be taken out in any order.** Every removal succeeds and gives
what the operation held at the start, and the same circuit is left but for the order of its edges
and of its free numbers: the one that has lost exactly these operations. -/
theorem removal_order_is_irrelevant {c : Circuit} (hc : c.Reachable) {ns ms : List NodeId}
    (hd : ns.Nodup) (hops : ∀ n ∈ ns, ∃ i, c.node? n = some (.op i)) (hperm : ms.Perm ns) :
    c.Clears ns (c.removeAll ns).1 (c.removeAll ns).2 ∧
      c.Clears ms (c.removeAll ms).1 (c.removeAll ms).2 ∧
      (c.removeAll ns).2.SameUpToOrder (c.removeAll ms).2 := by
  obtain ⟨ops, h⟩ := hc.wired
  have hsome : ∀ n ∈ ns, (c.instruction? n).isSome := by
    intro n hn
    obtain ⟨i, hi⟩ := hops n hn
    rw [Circuit.instruction?_eq_some.mpr hi]; rfl
  obtain ⟨hns, s₁⟩ := h.removeAll_spec hd hsome
  obtain ⟨hms, s₂⟩ := h.removeAll_spec (hperm.nodup_iff.mpr hd) fun m hm => hsome m (hperm.mem_iff.mp hm)
  exact ⟨s₁.clears h hns, s₂.clears h hms, s₁.sameUpToOrder (s₂.congr fun _ => hperm.mem_iff) h⟩

theorem removal_order_of_braided :
    let c := (braided.removeAll [6, 7, 9]).2
    let d := (braided.removeAll [7, 9, 6]).2
    braided.Reachable ∧ c ≠ d ∧
      (braided.removeAll [7, 9, 6]).1 =
        [.ok ⟨.reset, [⟨1⟩, ⟨0⟩], [⟨0⟩]⟩, .ok (.measure ⟨1⟩ ⟨0⟩), .ok (.gateAcross .cx ⟨0⟩ ⟨1⟩)] ∧
      c.node? 7 = none ∧ c.node? 8 = d.node? 8 ∧ c.graph.edges.Perm d.graph.edges ∧
      c.nodesOn (.qubit ⟨1⟩) = .ok [8] ∧ d.nodesOn (.qubit ⟨1⟩) = .ok [8] ∧
      d.nodesOn (.clbit ⟨0⟩) = .ok [] := by
  intro c d
  have hops : ∀ n ∈ [6, 7, 9], ∃ i, braided.node? n = some (.op i) := by
    simp only [List.forall_mem_cons]
    exact ⟨⟨.gateAcross .cx ⟨0⟩ ⟨1⟩, by decide +kernel⟩,
      ⟨⟨.reset, [⟨1⟩, ⟨0⟩], [⟨0⟩]⟩, by decide +kernel⟩, ⟨.measure ⟨1⟩ ⟨0⟩, by decide +kernel⟩, by simp⟩
  have hperm : [7, 9, 6].Perm [6, 7, 9] := by decide
  obtain ⟨hc, hd, hsame⟩ := removal_order_is_irrelevant reachable_braided (by decide) hops hperm
  have hrow : braided.nodesOn (.qubit ⟨1⟩) = .ok [6, 7, 8, 9] := by decide +kernel
  have hbit : braided.nodesOn (.clbit ⟨0⟩) = .ok [7, 9] := by decide +kernel
  refine ⟨reachable_braided, by decide +kernel, ?_, hc.node? 7, hsame.node? 8, hsame.edges,
    hc.wires.nodesOn hrow, hd.wires.nodesOn hrow, hd.wires.nodesOn hbit⟩
  decide +kernel

end QuantumCircuit
