import QuantumCircuit.Proofs.Wiring

/-!
# Growing circuits stay wired

Adding a wire leaves all others alone, and an instruction that is taken in comes last on each
of its wires. The numbers that new nodes get may have been freed before.
-/

namespace QuantumCircuit

namespace Graph

variable {α β : Type} {g : Graph α β}

/-! ## Numbers of nodes -/

structure Allocates (g : Graph α β) (a : α) (n : NodeId) (g' : Graph α β) : Prop where
  fresh : g.node? n = none
  node? : ∀ m, g'.node? m = if m = n then some a else g.node? m
  edges : g'.edges = g.edges
  numbered : g'.Numbered

theorem Numbered.addNode (h : g.Numbered) (a : α) :
    g.Allocates a (g.addNode a).1 (g.addNode a).2 := by
  unfold Graph.addNode
  cases hf : g.free with
  | nil =>
    have hfresh : g.node? g.slots.size = none := by simp [Graph.node?]
    refine ⟨hfresh, ?_, rfl, ⟨by simp, by simp⟩⟩
    intro m
    simp only [Graph.node?, Array.getElem?_push]
    split <;> rfl
  | cons n rest =>
    have hn := h.vacant n (by simp [hf])
    have hnode : ∀ m, ({ g with slots := g.slots.setIfInBounds n (some a), free := rest } :
        Graph α β).node? m = if m = n then some a else g.node? m := by
      intro m
      by_cases hm : m = n
      · subst hm; simp [Graph.node?, hn.1]
      · simp [Graph.node?, hm, Array.getElem?_setIfInBounds_ne (Ne.symm hm)]
    have hd := h.nodup
    rw [hf, List.nodup_cons] at hd
    refine ⟨hn.2, hnode, rfl, ⟨hd.2, ?_⟩⟩
    intro m hm
    have hmn : m ≠ n := fun e => hd.1 (e ▸ hm)
    rw [hnode, if_neg hmn]
    simpa using h.vacant m (by simp [hf, hm])

end Graph

namespace Circuit

variable {c : Circuit} {ops : Wire → List NodeId}

theorem Wired.empty : Circuit.empty.Wired fun _ => [] where
  numbered := ⟨List.nodup_nil, by simp [Circuit.empty]⟩
  keys := List.nodup_nil
  same_keys := rfl
  input_iff := by simp [Circuit.empty, input?, node?, Graph.node?]
  output_iff := by simp [Circuit.empty, output?, node?, Graph.node?]
  accepted := by simp [Circuit.empty, instruction?, node?, Graph.node?]
  mem_ops := by simp [Circuit.empty, instruction?, node?, Graph.node?]
  threaded := fun _ => .refl _
  ranked := ⟨fun _ => 0, fun _ => .nil⟩

/-! ## Adding a wire -/

theorem Wired.fresh_not_mem (h : c.Wired ops) {n : NodeId} (hn : c.graph.node? n = none) (w : Wire) :
    n ∉ c.track ops w := by
  intro hmem
  obtain ⟨a, ha⟩ := isLive_iff.mp (h.isLive_of_mem_track hmem)
  rw [node?, hn] at ha
  cases ha

theorem lookup_append_singleton {β : Type} {l : List (Wire × β)} {w : Wire} (hw : l.lookup w = none)
    (b : β) (v : Wire) :
    (l ++ [(w, b)]).lookup v = if v = w then some b else l.lookup v := by
  rw [List.lookup_append]
  by_cases hv : v = w
  · subst hv; simp [hw]
  · have : (v == w) = false := by simpa using hv
    rw [if_neg hv, List.lookup_cons, this]
    simp

structure AddsWire (c : Circuit) (w : Wire) (i o : NodeId) (c' : Circuit) : Prop where
  numbered : c'.graph.Numbered
  input_fresh : c.node? i = none
  output_fresh : c.node? o = none
  distinct : o ≠ i
  node? : ∀ m, c'.node? m =
    if m = o then some (.output w) else if m = i then some (.input w) else c.node? m
  edges : c'.graph.edges = ⟨i, o, w⟩ :: c.graph.edges
  inputs : c'.inputs = c.inputs ++ [(w, i)]
  outputs : c'.outputs = c.outputs ++ [(w, o)]

theorem addWire_spec (h : c.graph.Numbered) {w : Wire} (hw : ¬ c.hasWire w) :
    ∃ i o, c.AddsWire w i o (c.addWire w) := by
  have hi := h.addNode (.input w)
  have ho := hi.numbered.addNode (.output w)
  refine ⟨(c.graph.addNode (.input w)).1, ((c.graph.addNode (.input w)).2.addNode (.output w)).1, ?_⟩
  rw [addWire, if_neg hw]
  have hio : ((c.graph.addNode (.input w)).2.addNode (.output w)).1 ≠ (c.graph.addNode (.input w)).1 := by
    intro heq
    have := ho.fresh
    rw [hi.node?, if_pos heq] at this
    cases this
  have hfresh := ho.fresh
  rw [hi.node?, if_neg hio] at hfresh
  refine ⟨⟨ho.numbered.nodup, ho.numbered.vacant⟩, hi.fresh, hfresh, hio, ?_, ?_, rfl, rfl⟩
  · intro m
    show ((c.graph.addNode (.input w)).2.addNode (.output w)).2.node? m = _
    rw [ho.node?, hi.node?]
    rfl
  · exact congrArg (List.cons _) (ho.edges.trans hi.edges)

namespace AddsWire

variable {c' : Circuit} {w : Wire} {i o : NodeId}

theorem input? (s : c.AddsWire w i o c') (hw : c.input? w = none) (v : Wire) :
    c'.input? v = if v = w then some i else c.input? v := by
  unfold Circuit.input?
  rw [s.inputs]
  exact lookup_append_singleton hw i v

theorem output? (s : c.AddsWire w i o c') (hw : c.output? w = none) (v : Wire) :
    c'.output? v = if v = w then some o else c.output? v := by
  unfold Circuit.output?
  rw [s.outputs]
  exact lookup_append_singleton hw o v

theorem instruction? (s : c.AddsWire w i o c') (m : NodeId) :
    c'.instruction? m = c.instruction? m := by
  unfold Circuit.instruction?
  rw [s.node?]
  by_cases ho : m = o
  · rw [if_pos ho, ho, s.output_fresh]; rfl
  · by_cases hi : m = i
    · rw [if_neg ho, if_pos hi, hi, s.input_fresh]; rfl
    · rw [if_neg ho, if_neg hi]

theorem hasWire (s : c.AddsWire w i o c') {v : Wire} : c'.hasWire v ↔ c.hasWire v ∨ v = w := by
  rw [hasWire_iff, hasWire_iff, s.inputs, List.map_append, List.mem_append]
  simp

theorem track (s : c.AddsWire w i o c') (h : c.Wired ops) (hw : ¬ c.hasWire w) (v : Wire) :
    c'.track ops v = if v = w then [i, o] else c.track ops v := by
  have hi : c.input? w = none := by simpa [Circuit.hasWire] using hw
  have ho : c.output? w = none := by simpa [h.hasWire_iff_output] using hw
  unfold Circuit.track
  rw [s.input? hi, s.output? ho]
  by_cases hv : v = w
  · simp [hv, h.ops_eq_nil hw]
  · simp [hv]

theorem wired (s : c.AddsWire w i o c') (h : c.Wired ops) (hw : ¬ c.hasWire w) : c'.Wired ops where
  numbered := s.numbered
  keys := by
    rw [s.inputs, List.map_append, List.nodup_append]
    refine ⟨h.keys, by simp, ?_⟩
    rintro v hv v' hv' rfl
    rw [List.mem_singleton.mp hv'] at hv
    exact hw (hasWire_iff.mpr hv)
  same_keys := by simp [s.inputs, s.outputs, h.same_keys]
  input_iff := by
    intro v n
    have hi : c.input? w = none := by simpa [Circuit.hasWire] using hw
    have hv := h.input_iff v n
    have hfresh := h.input_iff v i
    rw [s.input_fresh] at hfresh
    have hfresh' := h.input_iff v o
    rw [s.output_fresh] at hfresh'
    have hio := s.distinct
    rw [s.input? hi, s.node?]
    grind
  output_iff := by
    intro v n
    have ho : c.output? w = none := by simpa [h.hasWire_iff_output] using hw
    have hv := h.output_iff v n
    have hfresh := h.output_iff v i
    rw [s.input_fresh] at hfresh
    have hfresh' := h.output_iff v o
    rw [s.output_fresh] at hfresh'
    have hio := s.distinct
    rw [s.output? ho, s.node?]
    grind
  accepted := by
    intro n j hj
    rw [s.instruction?] at hj
    obtain ⟨h₁, h₂, h₃⟩ := refusal?_eq_none.mp (h.accepted n j hj)
    exact refusal?_eq_none.mpr ⟨h₁, fun v hv => s.hasWire.mpr (.inl (h₂ v hv)), h₃⟩
  mem_ops := by
    intro v n
    rw [h.mem_ops v n, s.instruction?]
  threaded := by
    intro v
    rw [s.track h hw, s.edges, List.filter_cons]
    have hv := h.threaded v
    by_cases hvw : v = w
    · rw [hvw, h.track_eq_nil hw, pathEdges_nil, List.perm_nil] at hv
      simp [hvw, hv]
    · have : (w == v) = false := by simpa using Ne.symm hvw
      simpa [hvw, this] using hv
  ranked := by
    obtain ⟨rank, hr⟩ := h.ranked
    refine ⟨fun n => if n = i then 0 else if n = o then 1 else rank n, ?_⟩
    intro v
    rw [s.track h hw]
    by_cases hv : v = w
    · simp [hv, s.distinct]
    · rw [if_neg hv]
      refine (hr v).imp_of_mem ?_
      intro a b ha hb hab
      have hi := h.fresh_not_mem s.input_fresh v
      have ho := h.fresh_not_mem s.output_fresh v
      have hne : a ≠ i ∧ a ≠ o ∧ b ≠ i ∧ b ≠ o := by
        refine ⟨?_, ?_, ?_, ?_⟩ <;> rintro rfl <;> contradiction
      simpa [hne] using hab

end AddsWire

theorem Wired.addWire (h : c.Wired ops) (w : Wire) : (c.addWire w).Wired ops := by
  by_cases hw : c.hasWire w
  · rwa [Circuit.addWire, if_pos hw]
  · obtain ⟨i, o, s⟩ := addWire_spec h.numbered hw
    exact s.wired h hw

theorem Wired.hasWire_addWire (h : c.Wired ops) {v w : Wire} :
    (c.addWire w).hasWire v ↔ c.hasWire v ∨ v = w := by
  by_cases hw : c.hasWire w
  · rw [Circuit.addWire, if_pos hw]
    refine ⟨.inl, ?_⟩
    rintro (hv | rfl)
    · exact hv
    · exact hw
  · obtain ⟨i, o, s⟩ := addWire_spec h.numbered hw
    exact s.hasWire

/-! ## Appending -/

def extend (ops : Wire → List NodeId) (n : NodeId) (ws : List Wire) (w : Wire) : List NodeId :=
  if w ∈ ws then ops w ++ [n] else ops w

theorem extend_nil (ops : Wire → List NodeId) (n : NodeId) : extend ops n [] = ops := by
  funext w
  simp [extend]

theorem lastEdge?_eq (hc : c.graph.Threaded (c.track ops)) {w : Wire} {p : List NodeId} {a o : NodeId}
    (ho : c.output? w = some o) (hp : c.track ops w = p ++ [a, o]) (hn : (c.track ops w).Nodup) :
    c.lastEdge? w = some ⟨a, o, w⟩ := by
  have hinto : (c.graph.incoming o).filter (·.label == w) = [⟨a, o, w⟩] :=
    hc.edgesAt_eq .backward (e := ⟨a, o, w⟩) hn (hc.mem_edges.mpr ⟨p, [], hp⟩)
  unfold lastEdge?
  rw [ho, Option.bind_some, ← List.head?_filter, hinto, List.head?_cons]

theorem attach_spec {n : NodeId} : ∀ (ws : List Wire) (c : Circuit) (ops : Wire → List NodeId),
    c.graph.Threaded (c.track ops) → ws.Nodup →
    (∀ w ∈ ws, c.hasWire w ∧ (c.output? w).isSome ∧ (c.track ops w).Nodup) →
    ∃ es, attach n ws c = (.ok n, { c with graph := { c.graph with edges := es } }) ∧
      ({ c.graph with edges := es } : Graph Node Wire).Threaded (c.track (extend ops n ws))
  | [], c, ops, hc, _, _ => ⟨c.graph.edges, rfl, by rw [extend_nil]; exact hc⟩
  | w :: ws, c, ops, hc, hd, hws => by
    obtain ⟨hw, hout, hn⟩ := hws w (by simp)
    obtain ⟨i, hi⟩ := Option.isSome_iff_exists.mp hw
    obtain ⟨o, ho⟩ := Option.isSome_iff_exists.mp hout
    obtain ⟨p, a, hpa⟩ := exists_concat i (ops w)
    have htrack : ∀ r, c.track (Function.update ops w (ops w ++ r)) w = p ++ a :: (r ++ [o]) := by
      intro r
      have : i :: (ops w ++ (r ++ [o])) = (i :: ops w) ++ (r ++ [o]) := rfl
      simp [track, hi, ho, this, hpa]
    have hp : c.track ops w = p ++ [a, o] := by simpa using htrack []
    -- the graph after the step, threaded along the operations with `n` last on `w`
    have hstep : (((c.graph.removeEdge ⟨a, o, w⟩).addEdge ⟨a, n, w⟩).addEdge ⟨n, o, w⟩).Threaded
        (c.track (Function.update ops w (ops w ++ [n]))) := by
      have hupd : c.track (Function.update ops w (ops w ++ [n])) =
          Function.update (c.track ops) w (p ++ [a, n, o]) := by
        funext v
        by_cases hv : v = w
        · rw [hv, htrack [n], Function.update_self]; rfl
        · simp [track, Function.update_of_ne hv]
      rw [hupd]
      exact hc.insert_last hp n
    have hrest : ∀ v ∈ ws, v ≠ w := fun v hv e => (List.nodup_cons.mp hd).1 (e ▸ hv)
    obtain ⟨es, hes, hth⟩ := attach_spec ws
      { c with graph := ((c.graph.removeEdge ⟨a, o, w⟩).addEdge ⟨a, n, w⟩).addEdge ⟨n, o, w⟩ }
      (Function.update ops w (ops w ++ [n])) hstep (List.nodup_cons.mp hd).2 (by
        intro v hv
        obtain ⟨h₁, h₂, h₃⟩ := hws v (by simp [hv])
        refine ⟨h₁, h₂, ?_⟩
        show (c.track (Function.update ops w (ops w ++ [n])) v).Nodup
        rwa [track, Function.update_of_ne (hrest v hv)])
    refine ⟨es, ?_, ?_⟩
    · rw [attach, lastEdge?_eq hc ho hp hn]
      exact hes
    · have hext : extend (Function.update ops w (ops w ++ [n])) n ws = extend ops n (w :: ws) := by
        funext v
        by_cases hv : v = w
        · have hnot : w ∉ ws := (List.nodup_cons.mp hd).1
          simp [extend, hv, hnot]
        · simp [extend, hv]
      rw [← hext]
      exact hth

/-- `c'` is `c` with a new operation `n` that holds `i` and comes last on its wires. -/
structure Appends (c : Circuit) (ops : Wire → List NodeId) (i : Instruction) (n : NodeId)
    (c' : Circuit) : Prop where
  numbered : c'.graph.Numbered
  fresh : c.node? n = none
  node? : ∀ m, c'.node? m = if m = n then some (.op i) else c.node? m
  inputs : c'.inputs = c.inputs
  outputs : c'.outputs = c.outputs
  threaded : c'.graph.Threaded (c'.track (extend ops n i.wires))

theorem Wired.append_spec (h : c.Wired ops) {i : Instruction} (hi : c.refusal? i = none) :
    ∃ n c', c.append i = (.ok n, c') ∧ c.Appends ops i n c' := by
  have hn := h.numbered.addNode (.op i)
  obtain ⟨-, hwires, hd⟩ := refusal?_eq_none.mp hi
  have hth : (c.graph.addNode (.op i)).2.Threaded (c.track ops) := by
    intro w
    rw [hn.edges]
    exact h.threaded w
  obtain ⟨es, hes, hth'⟩ := attach_spec (n := (c.graph.addNode (.op i)).1) i.wires
    { c with graph := (c.graph.addNode (.op i)).2 } ops hth hd fun w hw =>
      ⟨hwires w hw, h.hasWire_iff_output.mp (hwires w hw), h.nodup_track w⟩
  refine ⟨_, _, by rw [append, hi]; exact hes, ?_⟩
  exact ⟨⟨hn.numbered.nodup, hn.numbered.vacant⟩, hn.fresh, hn.node?, rfl, rfl, hth'⟩

namespace Appends

variable {c' : Circuit} {i : Instruction} {n : NodeId}

theorem input? (s : c.Appends ops i n c') (w : Wire) : c'.input? w = c.input? w := by
  unfold Circuit.input?
  rw [s.inputs]

theorem output? (s : c.Appends ops i n c') (w : Wire) : c'.output? w = c.output? w := by
  unfold Circuit.output?
  rw [s.outputs]

theorem hasWire (s : c.Appends ops i n c') (w : Wire) : c'.hasWire w = c.hasWire w := by
  unfold Circuit.hasWire
  rw [s.input?]

theorem instruction? (s : c.Appends ops i n c') (m : NodeId) :
    c'.instruction? m = if m = n then some i else c.instruction? m := by
  unfold Circuit.instruction?
  rw [s.node?]
  split <;> rfl

theorem accepted (s : c.Appends ops i n c') (h : c.Wired ops) (hi : c.refusal? i = none) (m : NodeId)
    (j : Instruction) (hj : c'.instruction? m = some j) : c'.refusal? j = none := by
  have hc : c.refusal? j = none := by
    rw [s.instruction?] at hj
    split at hj
    · cases hj; exact hi
    · exact h.accepted m j hj
  rw [refusal?_eq_none] at hc ⊢
  simpa only [s.hasWire] using hc

theorem mem_ops (s : c.Appends ops i n c') (h : c.Wired ops) (w : Wire) (m : NodeId) :
    m ∈ extend ops n i.wires w ↔ ∃ j, c'.instruction? m = some j ∧ w ∈ j.wires := by
  have hm := h.mem_ops w m
  have hn : c.instruction? n = none := by
    unfold Circuit.instruction?
    rw [s.fresh]; rfl
  simp only [s.instruction?]
  unfold extend
  by_cases hmn : m = n
  · subst hmn
    rw [hn] at hm
    by_cases hw : w ∈ i.wires <;> simp [hw, hm]
  · by_cases hw : w ∈ i.wires <;> simp [hw, hmn, hm]

theorem exists_bound (f : NodeId → Nat) : ∀ l : List NodeId, ∃ top, ∀ m ∈ l, f m ≤ top
  | [] => ⟨0, by simp⟩
  | n :: l => by
    obtain ⟨top, htop⟩ := exists_bound f l
    refine ⟨max (f n) top, ?_⟩
    intro m hm
    rcases List.mem_cons.mp hm with rfl | hm
    · exact Nat.le_max_left _ _
    · exact Nat.le_trans (htop m hm) (Nat.le_max_right _ _)

/-- Ranks with the new operation `n` above `top` and the output ends above it. -/
def raise (c : Circuit) (rank : NodeId → Nat) (top : Nat) (n m : NodeId) : Nat :=
  if m = n then top + 1 else if (c.node? m).any (·.isOutput) then top + 2 else rank m

theorem raise_of_mem (s : c.Appends ops i n c') (h : c.Wired ops) (rank : NodeId → Nat) (top : Nat)
    {w : Wire} {a m : NodeId} (ha : c.input? w = some a) (hm : m ∈ a :: ops w) :
    raise c rank top n m = rank m := by
  have hmem : m ∈ c.track ops w := by
    rw [track, ha, List.mem_append]
    exact .inl hm
  have hmn : m ≠ n := fun e => h.fresh_not_mem s.fresh w (e ▸ hmem)
  have hout : (c.node? m).any (·.isOutput) = false := by
    rcases List.mem_cons.mp hm with rfl | hm
    · rw [(h.input_iff w m).mp ha]; rfl
    · obtain ⟨j, hj, -⟩ := (h.mem_ops w m).mp hm
      rw [instruction?_eq_some.mp hj]; rfl
  simp [raise, hmn, hout]

theorem raise_of_output (s : c.Appends ops i n c') (h : c.Wired ops) (rank : NodeId → Nat) (top : Nat)
    {w : Wire} {o : NodeId} (ho : c.output? w = some o) : raise c rank top n o = top + 2 := by
  have hmem : o ∈ c.track ops w := by simp [track, ho]
  have hon : o ≠ n := fun e => h.fresh_not_mem s.fresh w (e ▸ hmem)
  simp [raise, hon, (h.output_iff w o).mp ho, Node.isOutput]

theorem track_eq (s : c.Appends ops i n c') {w : Wire} {a o : NodeId} (ha : c.input? w = some a)
    (ho : c.output? w = some o) : c'.track (extend ops n i.wires) w =
      (a :: ops w) ++ ((if w ∈ i.wires then [n] else []) ++ [o]) := by
  unfold track extend
  rw [s.input?, s.output?, ha, ho]
  split <;> simp

theorem track_eq_nil (s : c.Appends ops i n c') (h : c.Wired ops) (hi : c.refusal? i = none) {w : Wire}
    (hw : ¬ c.hasWire w) : c'.track (extend ops n i.wires) w = [] := by
  have hnot : w ∉ i.wires := fun hmem => hw ((refusal?_eq_none.mp hi).2.1 w hmem)
  unfold track extend
  rw [s.input?, s.output?, if_neg hnot]
  exact h.track_eq_nil hw

theorem ranked (s : c.Appends ops i n c') (h : c.Wired ops) (hi : c.refusal? i = none) :
    ∃ rank : NodeId → Nat,
      ∀ w, (c'.track (extend ops n i.wires) w).Pairwise fun a b => rank a < rank b := by
  obtain ⟨rank, hr⟩ := h.ranked
  obtain ⟨top, hbound⟩ := exists_bound rank c.graph.nodes
  refine ⟨raise c rank top n, ?_⟩
  intro w
  by_cases hw : c.hasWire w
  · obtain ⟨a, o, ha, ho, ht⟩ := h.ends hw
    have hsub : (a :: ops w).Sublist (c.track ops w) := by
      rw [ht, ← List.cons_append]
      exact List.sublist_append_left _ _
    have hnew : raise c rank top n n = top + 1 := by simp [raise]
    have hlast := s.raise_of_output h rank top ho
    rw [s.track_eq ha ho, List.pairwise_append]
    refine ⟨?_, by split <;> simp [hnew, hlast], ?_⟩
    · refine ((hr w).sublist hsub).imp_of_mem ?_
      intro x y hx hy hxy
      rwa [s.raise_of_mem h rank top ha hx, s.raise_of_mem h rank top ha hy]
    · intro x hx y hy
      have hxt := s.raise_of_mem h rank top ha hx
      have hle : rank x ≤ top :=
        hbound x (Graph.mem_nodes.mpr (h.isLive_of_mem_track (hsub.subset hx)))
      have hyt : y = n ∨ y = o := by
        split at hy
        · simpa using hy
        · exact .inr (by simpa using hy)
      rcases hyt with rfl | rfl <;> omega
  · rw [s.track_eq_nil h hi hw]
    exact .nil

theorem wired (s : c.Appends ops i n c') (h : c.Wired ops) (hi : c.refusal? i = none) :
    c'.Wired (extend ops n i.wires) where
  numbered := s.numbered
  keys := s.inputs ▸ h.keys
  same_keys := by rw [s.inputs, s.outputs, h.same_keys]
  input_iff := by
    intro w m
    rw [s.input?, s.node?, h.input_iff]
    by_cases hm : m = n
    · subst hm; simp [s.fresh]
    · rw [if_neg hm]
  output_iff := by
    intro w m
    rw [s.output?, s.node?, h.output_iff]
    by_cases hm : m = n
    · subst hm; simp [s.fresh]
    · rw [if_neg hm]
  accepted := s.accepted h hi
  mem_ops := s.mem_ops h
  threaded := s.threaded
  ranked := s.ranked h hi

end Appends

theorem append_of_refusal {i : Instruction} {e : CircuitError} (hi : c.refusal? i = some e) :
    c.append i = (.error e, c) := by
  rw [append, hi]

theorem Wired.hasWire_append (h : c.Wired ops) (i : Instruction) (w : Wire) :
    (c.append i).2.hasWire w = c.hasWire w := by
  cases hi : c.refusal? i with
  | none =>
    obtain ⟨n, c', heq, s⟩ := h.append_spec hi
    rw [heq, s.hasWire]
  | some e => rw [append_of_refusal hi]

end Circuit

end QuantumCircuit
