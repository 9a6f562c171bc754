import Mathlib.Data.List.Sort
import QuantumCircuit.Proofs.Removal

/-!
# Counting operations

The nodes of a wired circuit are the two ends of every wire and the operations, so `opCount`
is the number of operations. An operation that is taken out leaves all counts of operations
as they were, but for those it was counted in.
-/

namespace QuantumCircuit

/-! ## Sorted lists -/

section
variable {α : Type} (le : α → α → Bool)

theorem insertBy_eq_orderedInsert (a : α) (as : List α) :
    insertBy le a as = as.orderedInsert (fun a b => le a b) a := by
  induction as with
  | nil => rfl
  | cons b as ih => rw [insertBy, List.orderedInsert_cons, ih]

theorem sortBy_eq_insertionSort (as : List α) : sortBy le as = as.insertionSort fun a b => le a b := by
  induction as with
  | nil => rfl
  | cons a as ih =>
    rw [List.insertionSort_cons, ← ih, ← insertBy_eq_orderedInsert]
    rfl

theorem sortBy_perm (as : List α) : (sortBy le as).Perm as := by
  rw [sortBy_eq_insertionSort]
  exact List.perm_insertionSort _ as

end

namespace Circuit

variable {c c' : Circuit} {ops : Wire → List NodeId} {n : NodeId} {i : Instruction}

theorem mem_opsWhere {p : Instruction → Bool} :
    n ∈ c.opsWhere p ↔ ∃ i, c.instruction? n = some i ∧ p i := by
  unfold opsWhere
  rw [List.mem_filter, Option.any_eq_true]
  refine ⟨fun h => h.2, fun h => ⟨?_, h⟩⟩
  obtain ⟨i, hi, -⟩ := h
  exact Graph.mem_nodes.mpr (isLive_iff.mpr ⟨_, instruction?_eq_some.mp hi⟩)

theorem nodup_opsWhere (c : Circuit) (p : Instruction → Bool) : (c.opsWhere p).Nodup :=
  c.graph.nodup_nodes.filter _

/-! ## All nodes -/

theorem Wired.mem_inputs (h : c.Wired ops) :
    n ∈ c.inputs.map (·.2) ↔ ∃ w, c.node? n = some (.input w) := by
  simp only [← h.input_iff, input?, lookup_eq_some_iff_mem h.keys, List.mem_map]
  grind

theorem Wired.mem_outputs (h : c.Wired ops) :
    n ∈ c.outputs.map (·.2) ↔ ∃ w, c.node? n = some (.output w) := by
  simp only [← h.output_iff, output?, lookup_eq_some_iff_mem (h.same_keys ▸ h.keys), List.mem_map]
  grind

theorem nodup_map_snd {l : List (Wire × NodeId)} (hl : (l.map (·.1)).Nodup)
    (hinj : ∀ v w n, l.lookup v = some n → l.lookup w = some n → v = w) : (l.map (·.2)).Nodup := by
  refine List.Nodup.map_on ?_ hl.of_map
  rintro ⟨v, n⟩ hv ⟨w, m⟩ hw (rfl : n = m)
  rw [hinj v w n ((lookup_eq_some_iff_mem hl).mpr hv) ((lookup_eq_some_iff_mem hl).mpr hw)]

theorem Wired.nodup_inputs (h : c.Wired ops) : (c.inputs.map (·.2)).Nodup := by
  apply nodup_map_snd h.keys
  intro v w n hv hw
  have := ((h.input_iff v n).mp hv).symm.trans ((h.input_iff w n).mp hw)
  simpa using this

theorem Wired.nodup_outputs (h : c.Wired ops) : (c.outputs.map (·.2)).Nodup := by
  apply nodup_map_snd (h.same_keys ▸ h.keys)
  intro v w n hv hw
  have := ((h.output_iff v n).mp hv).symm.trans ((h.output_iff w n).mp hw)
  simpa using this

theorem Wired.perm_nodes (h : c.Wired ops) :
    c.graph.nodes.Perm (c.inputs.map (·.2) ++ (c.outputs.map (·.2) ++ c.opsWhere fun _ => true)) := by
  have hall : (c.inputs.map (·.2) ++ (c.outputs.map (·.2) ++ c.opsWhere fun _ => true)).Nodup := by
    simp only [List.nodup_append, List.mem_append, h.mem_inputs, h.mem_outputs, mem_opsWhere,
      instruction?_eq_some]
    refine ⟨h.nodup_inputs, ⟨h.nodup_outputs, c.nodup_opsWhere _, ?_⟩, ?_⟩ <;> grind
  rw [List.perm_ext_iff_of_nodup c.graph.nodup_nodes hall]
  intro m
  simp only [List.mem_append, h.mem_inputs, h.mem_outputs, mem_opsWhere, instruction?_eq_some,
    Graph.mem_nodes, isLive_iff]
  constructor
  · rintro ⟨a, ha⟩
    cases a with
    | input w => exact .inl ⟨w, ha⟩
    | output w => exact .inr (.inl ⟨w, ha⟩)
    | op i => exact .inr (.inr ⟨i, ha, trivial⟩)
  · rintro (⟨w, hw⟩ | ⟨w, hw⟩ | ⟨i, hi, -⟩)
    · exact ⟨_, hw⟩
    · exact ⟨_, hw⟩
    · exact ⟨_, hi⟩

theorem Wired.nodeCount_eq (h : c.Wired ops) :
    c.graph.nodeCount = 2 * c.inputs.length + (c.opsWhere fun _ => true).length := by
  have hnodes := h.perm_nodes.length_eq
  have hkeys := congrArg List.length h.same_keys
  simp only [List.length_append, List.length_map] at hnodes hkeys
  unfold Graph.nodeCount
  omega

theorem Wired.opCount_eq (h : c.Wired ops) : c.opCount = (c.opsWhere fun _ => true).length := by
  rw [opCount, h.nodeCount_eq, Nat.add_sub_cancel_left]

/-! ## The qubits and the classical bits -/

section
variable {α : Type} {part? : Wire → Option α} {wire : α → Wire}
  (hpart : ∀ w a, part? w = some a ↔ w = wire a)
include hpart

theorem mem_filterMap_inputs {a : α} :
    a ∈ c.inputs.filterMap (fun p => part? p.1) ↔ c.hasWire (wire a) := by
  rw [List.mem_filterMap, hasWire_iff, List.mem_map]
  simp only [hpart]

theorem Wired.nodup_filterMap_inputs (h : c.Wired ops) :
    (c.inputs.filterMap fun p => part? p.1).Nodup := by
  have hkeys : ((c.inputs.map (·.1)).filterMap part?).Nodup := by
    refine List.Nodup.filterMap ?_ h.keys
    intro v w a hv hw
    rw [(hpart v a).mp hv, (hpart w a).mp hw]
  rwa [List.filterMap_map] at hkeys

end

theorem mem_qubits {q : Qubit} : q ∈ c.qubits ↔ c.hasWire (.qubit q) := by
  rw [qubits, (sortBy_perm _ _).mem_iff]
  exact mem_filterMap_inputs fun _ _ => Wire.qubit?_eq_some

theorem mem_clbits {b : Clbit} : b ∈ c.clbits ↔ c.hasWire (.clbit b) := by
  rw [clbits, (sortBy_perm _ _).mem_iff]
  exact mem_filterMap_inputs fun _ _ => Wire.clbit?_eq_some

theorem Wired.nodup_qubits (h : c.Wired ops) : c.qubits.Nodup :=
  (sortBy_perm _ _).nodup_iff.mpr (h.nodup_filterMap_inputs fun _ _ => Wire.qubit?_eq_some)

/-! ## After a removal -/

theorem Cuts.mem_opsWhere (s : c.Cuts ops [n] c') {p : Instruction → Bool} {m : NodeId} :
    m ∈ c'.opsWhere p ↔ m ≠ n ∧ m ∈ c.opsWhere p := by
  rw [Circuit.mem_opsWhere, Circuit.mem_opsWhere, s.instruction?]
  by_cases hm : m = n <;> simp [hm]

theorem Cuts.length_opsWhere (s : c.Cuts ops [n] c') (hi : c.instruction? n = some i)
    (p : Instruction → Bool) :
    (c.opsWhere p).length = (c'.opsWhere p).length + if p i then 1 else 0 := by
  have hperm : (c'.opsWhere p).Perm ((c.opsWhere p).erase n) := by
    rw [List.perm_ext_iff_of_nodup (c'.nodup_opsWhere p) ((c.nodup_opsWhere p).erase n)]
    intro m
    rw [s.mem_opsWhere, (c.nodup_opsWhere p).mem_erase_iff]
  have hself : n ∈ c.opsWhere p ↔ p i := by simp [Circuit.mem_opsWhere, hi]
  rw [hperm.length_eq]
  by_cases hp : p i
  · rw [if_pos hp, List.length_erase_add_one (hself.mpr hp)]
  · rw [if_neg hp, List.erase_of_not_mem (mt hself.mp hp), Nat.add_zero]

theorem Cuts.opCount_eq {ds : List NodeId} (s : c.Cuts ops ds c') (h : c.Wired ops) (hd : ds.Nodup)
    (hds : ∀ n ∈ ds, (c.instruction? n).isSome) : c.opCount = c'.opCount + ds.length := by
  have hall : (c'.opsWhere (fun _ => true) ++ ds).Nodup := by
    refine List.nodup_append.mpr ⟨c'.nodup_opsWhere _, hd, ?_⟩
    rintro m hm k hk rfl
    obtain ⟨i, hi, -⟩ := Circuit.mem_opsWhere.mp hm
    exact s.not_mem_of_live (instruction?_eq_some.mp hi) hk
  have hperm : (c.opsWhere fun _ => true).Perm (c'.opsWhere (fun _ => true) ++ ds) := by
    rw [List.perm_ext_iff_of_nodup (c.nodup_opsWhere _) hall]
    intro m
    rw [List.mem_append, Circuit.mem_opsWhere, Circuit.mem_opsWhere, s.instruction?]
    by_cases hm : m ∈ ds
    · simpa [hm] using Option.isSome_iff_exists.mp (hds m hm)
    · simp [hm]
  rw [h.opCount_eq, s.wired.opCount_eq, hperm.length_eq, List.length_append]

theorem Drops.length_opsWhere {P : Circuit → NodeId → Prop} {p : Instruction → Bool} {k : Nat}
    (hP : ∀ c n, P c n → ∃ i, c.instruction? n = some i ∧ (if p i then 1 else 0) = k)
    {ds : List NodeId} (h : Drops P c ds c') :
    ∀ {ops}, c.Wired ops → (c.opsWhere p).length = (c'.opsWhere p).length + k * ds.length := by
  induction h with
  | nil => exact fun _ => rfl
  | @cons c c' n ds hn _ ih =>
    intro ops h
    obtain ⟨i, hi, hk⟩ := hP c n hn
    obtain ⟨c₁, heq, s⟩ := h.remove_spec hi
    rw [heq] at ih
    rw [s.length_opsWhere hi, ih s.wired, hk, List.length_cons, Nat.mul_succ, Nat.add_assoc]

end Circuit

end QuantumCircuit
