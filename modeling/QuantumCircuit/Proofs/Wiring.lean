import QuantumCircuit.Circuit.Check
import QuantumCircuit.Proofs.Search
import QuantumCircuit.Proofs.Thread

/-!
# Wired circuits

A circuit is wired along `ops` if every wire leads from its input end through the operations
that `ops` lists for it to its output end, if there are no other edges, and if no cycle comes
of it. In a wired circuit neighbours, the operations on a wire and the read-out are what `ops`
says, and `check` finds nothing.
-/

namespace QuantumCircuit

/-! ## Instructions that a circuit takes in -/

theorem firstRepeat?_go_eq_none {α : Type} [DecidableEq α] : ∀ (xs seen : List α),
    firstRepeat?.go seen xs = none ↔ (∀ x ∈ xs, x ∉ seen) ∧ xs.Nodup
  | [], seen => by simp [firstRepeat?.go]
  | x :: xs, seen => by
    rw [firstRepeat?.go]
    by_cases hx : x ∈ seen
    · simp [hx]
    · rw [if_neg hx, firstRepeat?_go_eq_none xs (x :: seen)]
      simp only [List.mem_cons, not_or, List.nodup_cons]
      grind

theorem firstRepeat?_eq_none {α : Type} [DecidableEq α] (xs : List α) :
    firstRepeat? xs = none ↔ xs.Nodup := by
  simp [firstRepeat?, firstRepeat?_go_eq_none]

theorem Instruction.nodup_wires (i : Instruction) :
    i.wires.Nodup ↔ i.qubits.Nodup ∧ i.clbits.Nodup := by
  have hq : Function.Injective Wire.qubit := fun _ _ h => Wire.qubit.inj h
  have hb : Function.Injective Wire.clbit := fun _ _ h => Wire.clbit.inj h
  simp [wires, List.nodup_append, List.nodup_map_iff hq, List.nodup_map_iff hb]

namespace Circuit

theorem refusal?_eq_none {c : Circuit} {i : Instruction} :
    c.refusal? i = none ↔ arityFault? i = none ∧ (∀ w ∈ i.wires, c.hasWire w) ∧ i.wires.Nodup := by
  simp only [refusal?, Option.orElse_eq_orElse, Option.orElse_eq_or, Option.or_eq_none_iff,
    Option.map_eq_none_iff, List.find?_eq_none, firstRepeat?_eq_none, i.nodup_wires]
  simp only [Instruction.wires, List.mem_append, List.mem_map]
  grind

/-! ## The invariant -/

end Circuit

/-- The free numbers belong to empty slots, and none is listed twice. -/
structure Graph.Numbered {α β : Type} (g : Graph α β) : Prop where
  nodup : g.free.Nodup
  vacant : ∀ n ∈ g.free, n < g.slots.size ∧ g.node? n = none

theorem lookup_eq_some_iff_mem {κ α : Type} [DecidableEq κ] {l : List (κ × α)}
    (hl : (l.map (·.1)).Nodup) {k : κ} {a : α} : l.lookup k = some a ↔ (k, a) ∈ l := by
  constructor
  · intro hlookup
    obtain ⟨l₁, l₂, rfl, -⟩ := List.lookup_eq_some_iff.mp hlookup
    simp
  · intro hmem
    obtain ⟨l₁, l₂, rfl⟩ := List.append_of_mem hmem
    rw [List.map_append, List.map_cons, List.nodup_append] at hl
    refine List.lookup_eq_some_iff.mpr ⟨l₁, l₂, rfl, ?_⟩
    intro p hp
    have := hl.2.2 p.1 (List.mem_map_of_mem hp) k (by simp)
    simpa using this.symm

theorem lookup_eq_none_iff_not_mem {κ α : Type} [DecidableEq κ] {l : List (κ × α)} {k : κ} :
    l.lookup k = none ↔ k ∉ l.map (·.1) := by
  simp only [List.lookup_eq_none_iff, List.mem_map, bne_iff_ne, ne_eq, not_exists, not_and]
  exact forall₂_congr fun _ _ => not_congr eq_comm

namespace Circuit

/-- The nodes on `w` from end to end, if `ops w` are its operations. -/
def track (c : Circuit) (ops : Wire → List NodeId) (w : Wire) : List NodeId :=
  (c.input? w).toList ++ ops w ++ (c.output? w).toList

theorem ops_sublist_track (c : Circuit) (ops : Wire → List NodeId) (w : Wire) :
    (ops w).Sublist (c.track ops w) :=
  (List.sublist_append_right _ _).trans (List.sublist_append_left _ _)

structure Wired (c : Circuit) (ops : Wire → List NodeId) : Prop where
  numbered : c.graph.Numbered
  keys : (c.inputs.map (·.1)).Nodup
  same_keys : c.outputs.map (·.1) = c.inputs.map (·.1)
  input_iff : ∀ w n, c.input? w = some n ↔ c.node? n = some (.input w)
  output_iff : ∀ w n, c.output? w = some n ↔ c.node? n = some (.output w)
  accepted : ∀ n i, c.instruction? n = some i → c.refusal? i = none
  mem_ops : ∀ w n, n ∈ ops w ↔ ∃ i, c.instruction? n = some i ∧ w ∈ i.wires
  threaded : c.graph.Threaded (c.track ops)
  /-- Along every wire the nodes ascend by one and the same measure. -/
  ranked : ∃ rank : NodeId → Nat, ∀ w, (c.track ops w).Pairwise fun a b => rank a < rank b

theorem isLive_iff {c : Circuit} {n : NodeId} : c.graph.isLive n ↔ ∃ a, c.node? n = some a :=
  Option.isSome_iff_exists

theorem instruction?_eq_some {c : Circuit} {n : NodeId} {i : Instruction} :
    c.instruction? n = some i ↔ c.node? n = some (.op i) := by
  unfold instruction?
  cases c.node? n with
  | none => simp
  | some a => cases a <;> simp [Node.instruction?]

theorem hasWire_iff {c : Circuit} {w : Wire} : c.hasWire w ↔ w ∈ c.inputs.map (·.1) := by
  simp [hasWire, input?]

theorem output?_isSome_iff {c : Circuit} {w : Wire} :
    (c.output? w).isSome ↔ w ∈ c.outputs.map (·.1) := by
  simp [output?]

theorem nodesOn_eq_error {c : Circuit} {w : Wire} (hw : ¬ c.hasWire w) :
    c.nodesOn w = .error (.malformed (.noInput w)) := by
  have hi : c.input? w = none := by simpa [hasWire] using hw
  rw [nodesOn, hi]

theorem hasWire_of_nodesOn {c : Circuit} {w : Wire} {l : List NodeId} (h : c.nodesOn w = .ok l) :
    c.hasWire w := by
  by_contra hw
  rw [nodesOn_eq_error hw] at h
  cases h

theorem opsOn_eq_error {c : Circuit} {w : Wire} (hw : ¬ c.hasWire w) :
    c.opsOn w = .error (.malformed (.noInput w)) := by
  rw [opsOn, nodesOn_eq_error hw]
  rfl

theorem edge_of_neighbour {c : Circuit} {d : Direction} {n m : NodeId} {w : Wire}
    (h : c.neighbour d n w = .ok m) : d.edge n m w ∈ c.graph.edges := by
  unfold neighbour at h
  split at h
  · split at h
    · rename_i e he
      cases h
      obtain ⟨hmem, rfl⟩ := Graph.mem_edgesAt.mp (List.mem_of_find?_eq_some he)
      obtain rfl : e.label = w := by simpa using List.find?_some he
      rwa [d.edge_near_far]
    · cases h
  · cases h

namespace Wired

variable {c : Circuit} {ops : Wire → List NodeId}

theorem nodup_track (h : c.Wired ops) (w : Wire) : (c.track ops w).Nodup := by
  obtain ⟨rank, hr⟩ := h.ranked
  refine (hr w).imp ?_
  rintro a b hab rfl
  exact Nat.lt_irrefl _ hab

theorem nodup_ops (h : c.Wired ops) (w : Wire) : (ops w).Nodup :=
  (h.nodup_track w).sublist (ops_sublist_track c ops w)

theorem isLive_of_mem_track (h : c.Wired ops) {w : Wire} {n : NodeId} (hn : n ∈ c.track ops w) :
    c.graph.isLive n := by
  rw [isLive_iff]
  simp only [track, List.mem_append, Option.mem_toList] at hn
  rcases hn with (hn | hn) | hn
  · exact ⟨_, (h.input_iff w n).mp hn⟩
  · obtain ⟨i, hi, -⟩ := (h.mem_ops w n).mp hn
    exact ⟨_, instruction?_eq_some.mp hi⟩
  · exact ⟨_, (h.output_iff w n).mp hn⟩

theorem closed (h : c.Wired ops) : c.graph.Closed := fun _ he =>
  ⟨h.isLive_of_mem_track (h.threaded.near_mem .forward he),
    h.isLive_of_mem_track (h.threaded.near_mem .backward he)⟩

theorem acyclic (h : c.Wired ops) : c.graph.Acyclic := by
  obtain ⟨rank, hr⟩ := h.ranked
  refine Graph.acyclic_of_rank rank ?_
  rintro a b ⟨⟨_, _, w⟩, he, rfl, rfl⟩
  obtain ⟨r, s, hp⟩ := h.threaded.mem_edges.mp he
  have := hr w
  rw [hp, List.pairwise_append, List.pairwise_cons] at this
  exact this.2.1.1 _ (by simp)

theorem hasWire_iff_output (h : c.Wired ops) {w : Wire} : c.hasWire w ↔ (c.output? w).isSome := by
  rw [hasWire_iff, output?_isSome_iff, h.same_keys]

theorem hasWire_of_mem_ops (h : c.Wired ops) {w : Wire} {n : NodeId} (hn : n ∈ ops w) : c.hasWire w := by
  obtain ⟨i, hi, hw⟩ := (h.mem_ops w n).mp hn
  exact (refusal?_eq_none.mp (h.accepted n i hi)).2.1 w hw

theorem ends (h : c.Wired ops) {w : Wire} (hw : c.hasWire w) :
    ∃ i o, c.input? w = some i ∧ c.output? w = some o ∧ c.track ops w = i :: (ops w ++ [o]) := by
  obtain ⟨i, hi⟩ := Option.isSome_iff_exists.mp hw
  obtain ⟨o, ho⟩ := Option.isSome_iff_exists.mp (h.hasWire_iff_output.mp hw)
  exact ⟨i, o, hi, ho, by simp [track, hi, ho]⟩

theorem isSome_of_mem_ops (h : c.Wired ops) {w : Wire} {n : NodeId} (hn : n ∈ ops w) :
    (c.instruction? n).isSome := by
  obtain ⟨i, hi, -⟩ := (h.mem_ops w n).mp hn
  rw [hi]; rfl

theorem ops_eq_nil (h : c.Wired ops) {w : Wire} (hw : ¬ c.hasWire w) : ops w = [] := by
  rw [List.eq_nil_iff_forall_not_mem]
  exact fun n hn => hw (h.hasWire_of_mem_ops hn)

theorem track_eq_nil (h : c.Wired ops) {w : Wire} (hw : ¬ c.hasWire w) : c.track ops w = [] := by
  have hi : c.input? w = none := by simpa [hasWire] using hw
  have ho : c.output? w = none := by simpa [h.hasWire_iff_output] using hw
  simp [track, hi, ho, h.ops_eq_nil hw]

theorem mem_track_iff (h : c.Wired ops) {n : NodeId} {i : Instruction}
    (hi : c.instruction? n = some i) (w : Wire) : n ∈ c.track ops w ↔ n ∈ ops w := by
  have hnode := instruction?_eq_some.mp hi
  have hin : c.input? w ≠ some n := fun hw => by simp [(h.input_iff w n).mp hw] at hnode
  have hout : c.output? w ≠ some n := fun hw => by simp [(h.output_iff w n).mp hw] at hnode
  simp [track, hin, hout]

/-! ## Neighbours -/

theorem edgesAt_eq (h : c.Wired ops) (d : Direction) {e : Edge Wire} (he : e ∈ c.graph.edges) :
    (c.graph.edgesAt d (e.near d)).filter (·.label == e.label) = [e] :=
  h.threaded.edgesAt_eq d (h.nodup_track e.label) he

theorem neighbour_of_edge (h : c.Wired ops) (d : Direction) {e : Edge Wire} (he : e ∈ c.graph.edges) :
    c.neighbour d (e.near d) e.label = .ok (e.far d) := by
  have hlive : c.graph.isLive (e.near d) := h.isLive_of_mem_track (h.threaded.near_mem d he)
  rw [neighbour, if_pos hlive, ← List.head?_filter, h.edgesAt_eq d he, List.head?_cons]

theorem neighbour_eq_ok (h : c.Wired ops) {d : Direction} {w : Wire} {n m : NodeId} :
    c.neighbour d n w = .ok m ↔ d.edge n m w ∈ c.graph.edges :=
  ⟨edge_of_neighbour, fun he => by simpa using h.neighbour_of_edge d he⟩

theorem mem_edges_of_track (h : c.Wired ops) {w : Wire} {p r : List NodeId} {n m : NodeId}
    (hp : c.track ops w = p ++ n :: m :: r) : ⟨n, m, w⟩ ∈ c.graph.edges :=
  h.threaded.mem_edges.mpr ⟨p, r, hp⟩

theorem next_eq_ok (h : c.Wired ops) {w : Wire} {n m : NodeId} :
    c.next n w = .ok m ↔ ∃ p r, c.track ops w = p ++ n :: m :: r :=
  h.neighbour_eq_ok.trans h.threaded.mem_edges

theorem exists_between (h : c.Wired ops) {w : Wire} {n : NodeId} (hn : n ∈ ops w) :
    ∃ p a b r, c.track ops w = p ++ a :: n :: b :: r := by
  obtain ⟨i, o, -, -, ht⟩ := h.ends (h.hasWire_of_mem_ops hn)
  obtain ⟨s, t, hs⟩ := List.append_of_mem hn
  obtain ⟨p, a, hp⟩ := exists_concat i s
  obtain ⟨b, r, hr⟩ : ∃ b r, t ++ [o] = b :: r := by cases t <;> simp
  refine ⟨p, a, b, r, ?_⟩
  calc c.track ops w = (i :: s) ++ n :: (t ++ [o]) := by rw [ht, hs]; simp
    _ = p ++ a :: n :: b :: r := by rw [hp, hr]; simp

theorem exists_last (h : c.Wired ops) {w : Wire} {o : NodeId} (ho : c.output? w = some o) :
    ∃ p a, c.track ops w = p ++ [a, o] := by
  have hw : c.hasWire w := h.hasWire_iff_output.mpr (by rw [ho]; rfl)
  obtain ⟨i, o', -, ho', ht⟩ := h.ends hw
  obtain rfl : o' = o := Option.some.inj (ho'.symm.trans ho)
  obtain ⟨p, a, hpa⟩ := exists_concat i (ops w)
  refine ⟨p, a, ?_⟩
  calc c.track ops w = (i :: ops w) ++ [o'] := by rw [ht]; rfl
    _ = p ++ [a, o'] := by rw [hpa]; simp

/-! ## Walking along a wire -/

theorem length_track_le (h : c.Wired ops) (w : Wire) :
    (c.track ops w).length ≤ c.graph.nodeCount := by
  refine (List.subperm_of_subset (h.nodup_track w) ?_).length_le
  intro n hn
  exact Graph.mem_nodes.mpr (h.isLive_of_mem_track hn)

theorem next_of_suffix (h : c.Wired ops) {w : Wire} {p l : List NodeId} {n m o : NodeId}
    (hp : c.track ops w = p ++ n :: (l ++ [o])) (hm : (l ++ [o]).head? = some m) :
    c.next n w = .ok m := by
  cases l with
  | nil =>
    cases hm
    exact h.next_eq_ok.mpr ⟨p, [], hp⟩
  | cons k l =>
    cases hm
    exact h.next_eq_ok.mpr ⟨p, l ++ [o], hp⟩

theorem walk_eq (h : c.Wired ops) {w : Wire} {o : NodeId} (ho : c.output? w = some o) :
    ∀ (l p : List NodeId) (steps : Nat) (n : NodeId), c.track ops w = p ++ (l ++ [o]) →
      (∀ k ∈ l, k ∈ ops w) → l.length ≤ steps → (l ++ [o]).head? = some n →
      c.walk w steps n = .ok l
  | [], p, steps, n, hp, hl, hs, hn => by
    cases hn
    have hnone : c.instruction? o = none := by
      unfold instruction?
      rw [(h.output_iff w o).mp ho]; rfl
    unfold walk
    rw [hnone]
  | k :: l, p, 0, n, hp, hl, hs, hn => absurd hs (Nat.not_succ_le_zero _)
  | k :: l, p, steps + 1, n, hp, hl, hs, hn => by
    cases hn
    obtain ⟨i, hi, -⟩ := (h.mem_ops w k).mp (hl k (by simp))
    obtain ⟨m, hm⟩ : ∃ m, (l ++ [o]).head? = some m := by cases l <;> simp
    have hrest := walk_eq h ho l (p ++ [k]) steps m (by simpa using hp)
      (fun x hx => hl x (by simp [hx])) (by simpa using hs) hm
    unfold walk
    rw [hi]
    simp only [h.next_of_suffix hp hm, hrest, bind, Except.bind, pure, Except.pure]

theorem nodesOn_eq (h : c.Wired ops) {w : Wire} (hw : c.hasWire w) :
    c.nodesOn w = .ok (ops w) := by
  obtain ⟨i, o, hi, ho, ht⟩ := h.ends hw
  obtain ⟨m, hm⟩ : ∃ m, (ops w ++ [o]).head? = some m := by cases ops w <;> simp
  have hlen := h.length_track_le w
  simp only [ht, List.length_cons, List.length_append, List.length_nil] at hlen
  have hwalk := h.walk_eq ho (ops w) [i] c.graph.nodeCount m ht (fun _ hk => hk) (by omega) hm
  unfold nodesOn
  rw [hi]
  simp only [h.next_of_suffix (p := []) ht hm, bind, Except.bind, hwalk]

theorem opsOn_eq (h : c.Wired ops) {w : Wire} (hw : c.hasWire w) :
    c.opsOn w = .ok ((ops w).filterMap c.instruction?) := by
  unfold opsOn
  rw [h.nodesOn_eq hw]; rfl

/-! ## Checking -/

theorem routeDefect?_eq_none (h : c.Wired ops) {w : Wire} {o : NodeId} :
    ∀ (l p : List NodeId) (steps : Nat) (n : NodeId), c.track ops w = p ++ (l ++ [o]) →
      l.length ≤ steps → (l ++ [o]).head? = some n → c.routeDefect? w o steps n = none
  | [], p, steps, n, hp, hs, hn => by
    cases hn
    unfold routeDefect?
    rw [if_pos rfl]
  | k :: l, p, 0, n, hp, hs, hn => absurd hs (Nat.not_succ_le_zero _)
  | k :: l, p, steps + 1, n, hp, hs, hn => by
    cases hn
    obtain ⟨m, hm⟩ : ∃ m, (l ++ [o]).head? = some m := by cases l <;> simp
    have hko : k ≠ o := by
      have hd := h.nodup_track w
      rw [hp, List.nodup_append, List.cons_append, List.nodup_cons] at hd
      rintro rfl
      exact hd.2.1.1 (by simp)
    have hrest := routeDefect?_eq_none h l (p ++ [k]) steps m (by simpa using hp)
      (by simpa using hs) hm
    unfold routeDefect?
    rw [if_neg hko, h.next_of_suffix hp hm]
    exact hrest

theorem input?_of_mem (h : c.Wired ops) {w : Wire} {n : NodeId} (hn : (w, n) ∈ c.inputs) :
    c.input? w = some n :=
  (lookup_eq_some_iff_mem h.keys).mpr hn

theorem wireDefect?_eq_none (h : c.Wired ops) {w : Wire} {n : NodeId} (hn : (w, n) ∈ c.inputs) :
    c.wireDefect? w n = none := by
  have hi := h.input?_of_mem hn
  obtain ⟨i, o, hi', ho, ht⟩ := h.ends (w := w) (by simp [hasWire, hi])
  obtain rfl : i = n := Option.some.inj (hi'.symm.trans hi)
  have hlen := h.length_track_le w
  simp only [ht, List.length_cons, List.length_append, List.length_nil] at hlen
  unfold wireDefect?
  rw [ho]
  exact h.routeDefect?_eq_none (i :: ops w) [] _ i ht (by simp only [List.length_cons]; omega) rfl

theorem degreeDefect?_eq_none (h : c.Wired ops) {n : NodeId} {i : Instruction}
    (hi : c.instruction? n = some i) : c.degreeDefect? n i = none := by
  unfold degreeDefect?
  rw [List.findSome?_eq_none_iff]
  intro w hw
  have hn : n ∈ ops w := (h.mem_ops w n).mpr ⟨i, hi, hw⟩
  obtain ⟨p, a, b, r, hp⟩ := h.exists_between hn
  have hin := congrArg List.length (h.edgesAt_eq .backward (h.mem_edges_of_track hp))
  have hout := congrArg List.length
    (h.edgesAt_eq .forward (h.mem_edges_of_track (p := p ++ [a]) (by simpa using hp)))
  simp only [← List.countP_eq_length_filter, List.length_singleton, Edge.near] at hin hout
  simp [hin, hout]

theorem topologicalOrder?_isSome (h : c.Wired ops) : c.graph.topologicalOrder?.isSome := by
  rw [(Graph.topologicalOrder?_eq_some h.acyclic h.closed).1]; rfl

theorem check_eq_ok (h : c.Wired ops) : c.check = .ok () := by
  have hdefect : c.defect? = none := by
    simp only [defect?, Option.orElse_eq_orElse, Option.orElse_eq_or, Option.or_eq_none_iff,
      Option.map_eq_none_iff, List.find?_eq_none, List.findSome?_eq_none_iff]
    refine ⟨by simp [h.topologicalOrder?_isSome], ?_, ?_, ?_, ?_⟩
    · intro p hp
      have : c.hasWire p.1 := hasWire_iff.mpr (List.mem_map_of_mem hp)
      have := h.hasWire_iff_output.mp this
      simpa [Option.isNone_iff_eq_none, Option.isSome_iff_ne_none] using this
    · intro p hp
      have : (c.output? p.1).isSome := output?_isSome_iff.mpr (List.mem_map_of_mem hp)
      have : (c.input? p.1).isSome := h.hasWire_iff_output.mpr this
      simpa [Option.isNone_iff_eq_none, Option.isSome_iff_ne_none] using this
    · intro p hp
      exact h.wireDefect?_eq_none hp
    · intro n _
      cases hi : c.instruction? n with
      | none => rfl
      | some i => exact h.degreeDefect?_eq_none hi
  unfold check
  rw [hdefect]

end Wired

end Circuit

end QuantumCircuit
