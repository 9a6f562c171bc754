import QuantumCircuit.Proofs.ReadOut
import QuantumCircuit.Proofs.Reachable

/-!
# Programs

A program is a list of instructions that are appended to a circuit in turn. The order in
which they were appended is one linear order of the operations and the read-out is another,
so the read-out is the program up to swaps of neighbours without a common wire.
-/

namespace QuantumCircuit

def Instruction.Apart (a b : Instruction) : Prop := ∀ w ∈ a.wires, w ∉ b.wires

namespace Circuit

def ofWires (ws : List Wire) : Circuit := ws.foldl addWire empty

/-- Whether each of the instructions is taken in when its turn comes. -/
def takesAll (c : Circuit) : List Instruction → Bool
  | [] => true
  | i :: is =>
    match c.append i with
    | (.ok _, c') => c'.takesAll is
    | (.error _, _) => false

variable {c c' : Circuit} {ops : Wire → List NodeId} {l : List NodeId}

/-! ## Linear orders of a growing circuit -/

theorem Linear.addWire (hl : c.Linear ops l) (h : c.Wired ops) (w : Wire) :
    (c.addWire w).Linear ops l := by
  by_cases hw : c.hasWire w
  · rwa [Circuit.addWire, if_pos hw]
  · obtain ⟨i, o, s⟩ := addWire_spec h.numbered hw
    refine ⟨hl.nodup, ?_, hl.sublist⟩
    intro n
    rw [s.instruction?, hl.mem_iff]

theorem Appends.not_mem {i : Instruction} {n : NodeId} (s : c.Appends ops i n c') (hl : c.Linear ops l) :
    n ∉ l := by
  intro hmem
  have hsome := (hl.mem_iff n).mp hmem
  rw [Circuit.instruction?, s.fresh] at hsome
  cases hsome

theorem Appends.linear {i : Instruction} {n : NodeId} (s : c.Appends ops i n c') (hl : c.Linear ops l) :
    c'.Linear (extend ops n i.wires) (l ++ [n]) := by
  refine ⟨?_, ?_, ?_⟩
  · rw [List.nodup_append]
    refine ⟨hl.nodup, by simp, ?_⟩
    intro m hm k hk
    rw [List.mem_singleton.mp hk]
    exact fun e => s.not_mem hl (e ▸ hm)
  · intro m
    rw [s.instruction?, List.mem_append, hl.mem_iff, List.mem_singleton]
    by_cases hm : m = n <;> simp [hm]
  · intro w
    unfold extend
    split
    · exact (hl.sublist w).append_right [n]
    · exact (hl.sublist w).trans (List.sublist_append_left _ _)

theorem Appends.filterMap_instruction? {i : Instruction} {n : NodeId} (s : c.Appends ops i n c')
    (hl : c.Linear ops l) :
    (l ++ [n]).filterMap c'.instruction? = l.filterMap c.instruction? ++ [i] := by
  have hnew : c'.instruction? n = some i := by rw [s.instruction?, if_pos rfl]
  have hold : l.filterMap c'.instruction? = l.filterMap c.instruction? := by
    apply List.filterMap_congr
    intro m hm
    have hmn : m ≠ n := fun e => s.not_mem hl (e ▸ hm)
    rw [s.instruction?, if_neg hmn]
  rw [List.filterMap_append, hold, List.filterMap_cons_some hnew, List.filterMap_nil]

theorem Wired.takesAll_cons (h : c.Wired ops) {i : Instruction} {is : List Instruction}
    (hok : c.takesAll (i :: is)) : ∃ n c', c.append i = (.ok n, c') ∧ c.Appends ops i n c' ∧
      c'.Wired (extend ops n i.wires) ∧ c'.takesAll is := by
  unfold takesAll at hok
  cases href : c.refusal? i with
  | none =>
    obtain ⟨n, c', heq, s⟩ := h.append_spec href
    rw [heq] at hok
    exact ⟨n, c', heq, s, s.wired h href, hok⟩
  | some e =>
    rw [append_of_refusal href] at hok
    cases hok

/-- The instructions that were appended come last, in their order, in one of the linear orders. -/
theorem Wired.linear_appendAll : ∀ (is : List Instruction) {c : Circuit} {ops : Wire → List NodeId}
    {l : List NodeId}, c.Wired ops → c.Linear ops l → c.takesAll is →
    ∃ ops' l', (c.appendAll is).Wired ops' ∧ (c.appendAll is).Linear ops' l' ∧
      l'.filterMap (c.appendAll is).instruction? = l.filterMap c.instruction? ++ is
  | [], c, ops, l, h, hl, _ => ⟨ops, l, h, hl, by rw [List.append_nil]; rfl⟩
  | i :: is, c, ops, l, h, hl, hok => by
    obtain ⟨n, c', heq, s, h', hrest⟩ := h.takesAll_cons hok
    obtain ⟨ops', l', hw, hl', hmap⟩ := linear_appendAll is h' (s.linear hl) hrest
    have hall : c.appendAll (i :: is) = c'.appendAll is := by
      rw [appendAll, List.foldl_cons, heq]; rfl
    rw [hall]
    refine ⟨ops', l', hw, hl', ?_⟩
    rw [hmap, s.filterMap_instruction? hl, List.append_assoc, List.singleton_append]

/-! ## The read-out -/

theorem readOut_map_snd (c : Circuit) :
    c.readOut.map (·.2) = (c.readOut.map (·.1)).filterMap c.instruction? := by
  rw [List.filterMap_map, ← List.filterMap_eq_map]
  apply List.filterMap_congr
  rintro ⟨n, i⟩ hp
  exact (mem_readOut hp).symm

theorem Wired.apart_instructions (h : c.Wired ops) (a b : NodeId) (i j : Instruction)
    (hab : Apart ops a b) (ha : c.instruction? a = some i) (hb : c.instruction? b = some j) :
    i.Apart j := fun w hi hj =>
  hab w ((h.mem_ops w a).mpr ⟨i, ha, hi⟩) ((h.mem_ops w b).mpr ⟨j, hb, hj⟩)

theorem Wired.readOut_appendAll (h : c.Wired ops) (hl : c.Linear ops l) {is : List Instruction}
    (hok : c.takesAll is) :
    Swaps Instruction.Apart (l.filterMap c.instruction? ++ is) ((c.appendAll is).readOut.map (·.2)) := by
  obtain ⟨ops', l', h', hl', heq⟩ := h.linear_appendAll is hl hok
  rw [← heq, readOut_map_snd]
  exact (hl'.swaps h'.linear_readOut).filterMap h'.apart_instructions

theorem wired_ofWires (ws : List Wire) :
    (ofWires ws).Wired (fun _ => []) ∧ (ofWires ws).Linear (fun _ => []) [] := by
  have hadd : ∀ (ws : List Wire) (c : Circuit), c.Wired (fun _ => []) → c.Linear (fun _ => []) [] →
      (ws.foldl addWire c).Wired (fun _ => []) ∧ (ws.foldl addWire c).Linear (fun _ => []) [] := by
    intro ws
    induction ws with
    | nil => exact fun c h hl => ⟨h, hl⟩
    | cons w ws ih => exact fun c h hl => ih _ (h.addWire w) (hl.addWire h w)
  refine hadd ws .empty .empty ⟨.nil, ?_, fun _ => .slnil⟩
  intro n
  simp [Circuit.empty, instruction?, node?, Graph.node?]

end Circuit

/-- **The read-out is the program up to swaps of neighbours without a common wire**, so it is
a permutation of it in which instructions that share a wire keep their order. -/
theorem readOut_rearranges_program (ws : List Wire) (is : List Instruction)
    (h : (Circuit.ofWires ws).takesAll is) :
    let c := (Circuit.ofWires ws).appendAll is
    c.graph.topologicalOrder?.isSome ∧
      Swaps Instruction.Apart is (c.readOut.map (·.2)) ∧
      (c.readOut.map (·.2)).Perm is ∧
      KeepsOrder Instruction.Apart is (c.readOut.map (·.2)) := by
  intro c
  obtain ⟨hw, hl⟩ := Circuit.wired_ofWires ws
  obtain ⟨ops, l, hc, -⟩ := hw.linear_appendAll is hl h
  have hswaps : Swaps Instruction.Apart is (c.readOut.map (·.2)) := hw.readOut_appendAll hl h
  exact ⟨hc.topologicalOrder?_isSome, hswaps, hswaps.perm.symm, hswaps.keepsOrder⟩

theorem readOut_rearranges_mixed_program :
    let ws : List Wire := [.qubit ⟨1⟩, .clbit ⟨0⟩, .qubit ⟨0⟩]
    let is : List Instruction :=
      [.gateOn .h ⟨0⟩, .gateOn .x ⟨1⟩, .barrier [], .gateAcross .cx ⟨0⟩ ⟨1⟩, .measure ⟨1⟩ ⟨0⟩,
        .reset ⟨0⟩]
    let js : List Instruction :=
      [.barrier [], .gateOn .h ⟨0⟩, .gateOn .x ⟨1⟩, .gateAcross .cx ⟨0⟩ ⟨1⟩, .reset ⟨0⟩,
        .measure ⟨1⟩ ⟨0⟩]
    (Circuit.ofWires ws).takesAll is ∧ ((Circuit.ofWires ws).appendAll is).readOut.map (·.2) = js ∧
      Swaps Instruction.Apart is js ∧ KeepsOrder Instruction.Apart is js := by
  intro ws is js
  have hok : (Circuit.ofWires ws).takesAll is := by decide +kernel
  have hread : ((Circuit.ofWires ws).appendAll is).readOut.map (·.2) = js := by decide +kernel
  obtain ⟨-, hswaps, -, horder⟩ := readOut_rearranges_program ws is hok
  rw [hread] at hswaps horder
  exact ⟨hok, hread, hswaps, horder⟩

end QuantumCircuit
