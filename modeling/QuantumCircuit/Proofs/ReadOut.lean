import QuantumCircuit.Proofs.Removal
import QuantumCircuit.Proofs.Swaps

/-!
# Orders of the operations

An order of the operations is linear for a circuit if it lists each operation once and agrees
with every wire. Any two such orders differ by swaps of neighbours without a common wire. The
order in which a circuit is read out is linear, and it stays so when operations are struck off
the list and taken out of the circuit.
-/

namespace QuantumCircuit

theorem filter_mem_eq_of_sublist {p l : List NodeId} (h : p.Sublist l) (hl : l.Nodup) :
    l.filter (· ∈ p) = p := by
  induction h with
  | slnil => rfl
  | cons a h ih =>
    rw [List.nodup_cons] at hl
    have ha : a ∉ _ := fun hmem => hl.1 (h.subset hmem)
    rw [List.filter_cons_of_neg (by simpa using ha), ih hl.2]
  | cons_cons a h ih =>
    rw [List.nodup_cons] at hl
    rw [List.filter_cons_of_pos (by simp), ← ih hl.2]
    congr 1
    apply List.filter_congr
    intro b hb
    have hba : b ≠ a := fun e => hl.1 (e ▸ hb)
    simp [hba, ih hl.2]

namespace Circuit

/-- The list holds each operation once, and those on a wire in the order of the wire. -/
structure Linear (c : Circuit) (ops : Wire → List NodeId) (l : List NodeId) : Prop where
  nodup : l.Nodup
  mem_iff : ∀ n, n ∈ l ↔ (c.instruction? n).isSome
  sublist : ∀ w, (ops w).Sublist l

variable {c c' : Circuit} {ops : Wire → List NodeId}

theorem Linear.on_wire {l : List NodeId} (h : c.Linear ops l) (w : Wire) : l.filter (· ∈ ops w) = ops w :=
  filter_mem_eq_of_sublist (h.sublist w) h.nodup

theorem Linear.split {l p r : List NodeId} {n : NodeId} {w : Wire} (h : c.Linear ops l)
    (hops : ops w = p ++ n :: r) : ∃ a b, l = a ++ n :: b ∧ b.filter (· ∈ ops w) = r := by
  obtain ⟨l₁, l₂, rfl, -, h₂⟩ := List.filter_eq_append_iff.mp ((h.on_wire w).trans hops)
  obtain ⟨a, b, rfl, -, -, hb⟩ := List.filter_eq_cons_iff.mp h₂
  exact ⟨l₁ ++ a, b, by simp, hb⟩

theorem Linear.swaps (hl : c.Linear ops l) {l' : List NodeId} (hl' : c.Linear ops l') :
    Swaps (Apart ops) l l' := by
  apply swaps_of_filter_eq ops hl.nodup
  · rw [List.perm_ext_iff_of_nodup hl.nodup hl'.nodup]
    intro n
    rw [hl.mem_iff, hl'.mem_iff]
  · intro w
    rw [hl.on_wire, hl'.on_wire]

theorem Wired.isChain_track (h : c.Wired ops) (w : Wire) : (c.track ops w).IsChain c.graph.Adj := by
  rw [List.isChain_iff_forall_rel_of_append_cons_cons]
  intro a b p r hp
  exact ⟨⟨a, b, w⟩, h.threaded.mem_edges.mpr ⟨p, r, hp⟩, rfl, rfl⟩

theorem Wired.track_sublist (h : c.Wired ops) {order : List NodeId} (hf : c.graph.Finished order)
    (hp : order.Perm c.graph.nodes) (w : Wire) : (c.track ops w).Sublist order := by
  by_cases hw : c.hasWire w
  · obtain ⟨i, o, hi, -, ht⟩ := h.ends hw
    have hmem : i ∈ c.track ops w := by rw [ht]; simp
    have hlive : i ∈ order := hp.mem_iff.mpr (Graph.mem_nodes.mpr (h.isLive_of_mem_track hmem))
    rw [ht]
    exact hf.sublist hlive (ht ▸ h.isChain_track w)
  · rw [h.track_eq_nil hw]
    exact List.nil_sublist _

theorem Wired.sublist_order (h : c.Wired ops) {order : List NodeId} (hf : c.graph.Finished order)
    (hp : order.Perm c.graph.nodes) (w : Wire) : (ops w).Sublist order :=
  (ops_sublist_track c ops w).trans (h.track_sublist hf hp w)

theorem readOut_eq {order : List NodeId} (h : c.graph.topologicalOrder? = some order) :
    c.readOut.map (·.1) = order.filter fun n => (c.instruction? n).isSome := by
  rw [readOut, h, Option.getD_some, List.map_filterMap, ← List.filterMap_eq_filter]
  apply List.filterMap_congr
  intro n _
  cases hi : c.instruction? n with
  | none => simp [Option.guard, hi]
  | some i => simp [Option.guard, hi]

theorem Wired.linear_readOut (h : c.Wired ops) : c.Linear ops (c.readOut.map (·.1)) := by
  obtain ⟨ho, hf, hp⟩ := Graph.topologicalOrder?_eq_some h.acyclic h.closed
  rw [readOut_eq ho]
  refine ⟨hf.nodup.filter _, ?_, ?_⟩
  · intro n
    rw [List.mem_filter, hp.mem_iff, Graph.mem_nodes]
    refine ⟨fun hn => hn.2, fun hn => ⟨?_, hn⟩⟩
    obtain ⟨i, hi⟩ := Option.isSome_iff_exists.mp hn
    exact isLive_iff.mpr ⟨_, instruction?_eq_some.mp hi⟩
  · intro w
    have hself : (ops w).filter (fun n => (c.instruction? n).isSome) = ops w := by
      rw [List.filter_eq_self]
      exact fun n hn => h.isSome_of_mem_ops hn
    rw [← hself]
    exact (h.sublist_order hf hp w).filter _

theorem mem_readOut {n : NodeId} {i : Instruction} (h : (n, i) ∈ c.readOut) : c.instruction? n = some i := by
  simp only [readOut, List.mem_filterMap, Option.map_eq_some_iff, Prod.mk.injEq] at h
  obtain ⟨m, -, j, hj, rfl, rfl⟩ := h
  exact hj

theorem Cuts.linear {ds l : List NodeId} (s : c.Cuts ops ds c') (h : c.Linear ops l) :
    c'.Linear (without ops ds) (l.filter (· ∉ ds)) := by
  refine ⟨h.nodup.filter _, ?_, ?_⟩
  · intro n
    rw [List.mem_filter, h.mem_iff, s.instruction?]
    by_cases hn : n ∈ ds <;> simp [hn]
  · intro w
    exact (h.sublist w).filter _

theorem Cuts.filterMap_instruction? {ds : List NodeId} (s : c.Cuts ops ds c') (l : List NodeId) :
    (l.filter (· ∉ ds)).filterMap c'.instruction? = (l.filter (· ∉ ds)).filterMap c.instruction? := by
  apply List.filterMap_congr
  intro n hn
  have hn' : n ∉ ds := by simpa using (List.mem_filter.mp hn).2
  rw [s.instruction?, if_neg hn']

end Circuit

end QuantumCircuit
