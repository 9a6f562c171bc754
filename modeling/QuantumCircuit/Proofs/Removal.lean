import QuantumCircuit.Proofs.Edits

/-!
# Taking operations out

An operation that is taken out leaves the rest of its wires in order, on all of them at once,
and every other node as it is. `Cuts` says what is left when several operations are gone;
`Drops` records that they are taken out one after another.
-/

namespace QuantumCircuit

namespace Graph

variable {α β : Type} {g : Graph α β}

theorem Numbered.removeNode (h : g.Numbered) (n : NodeId) : (g.removeNode n).Numbered := by
  by_cases hn : g.isLive n
  · have hnode := g.node?_removeNode n
    have hfree : (g.removeNode n).free = n :: g.free := by simp [Graph.removeNode, hn]
    have hsize : (g.removeNode n).slots.size = g.slots.size := by simp [Graph.removeNode, hn]
    have hnot : n ∉ g.free := by
      intro hmem
      simp [isLive, (h.vacant n hmem).2] at hn
    refine ⟨by rw [hfree]; exact List.nodup_cons.mpr ⟨hnot, h.nodup⟩, ?_⟩
    intro m hm
    rw [hfree] at hm
    rw [hnode, hsize]
    rcases List.mem_cons.mp hm with rfl | hm
    · exact ⟨lt_size_of_isLive hn, if_pos rfl⟩
    · have hmn : m ≠ n := fun e => hnot (e ▸ hm)
      rw [if_neg hmn]
      exact h.vacant m hm
  · rwa [Graph.removeNode, if_neg hn]

theorem edges_removeNode {n : NodeId} (hn : g.isLive n) :
    (g.removeNode n).edges = g.edges.filter (Edge.avoids n) := by
  rw [removeNode, if_pos hn]
  rfl

theorem foldl_addEdge : ∀ (es : List (Edge β)) (g : Graph α β),
    es.foldl addEdge g = { g with edges := es.reverse ++ g.edges }
  | [], _ => rfl
  | e :: es, g => by
    rw [List.foldl_cons, foldl_addEdge es, addEdge]
    simp

end Graph

namespace Circuit

variable {c : Circuit} {ops : Wire → List NodeId}

def without (ops : Wire → List NodeId) (ds : List NodeId) (w : Wire) : List NodeId :=
  (ops w).filter (· ∉ ds)

/-- `c'` is what is left of `c` when the operations `ds` are gone. -/
structure Cuts (c : Circuit) (ops : Wire → List NodeId) (ds : List NodeId) (c' : Circuit) : Prop where
  node? : ∀ m, c'.node? m = if m ∈ ds then none else c.node? m
  inputs : c'.inputs = c.inputs
  outputs : c'.outputs = c.outputs
  wired : c'.Wired (without ops ds)

theorem filter_toList_of_not_mem {o : Option NodeId} {ds : List NodeId} (h : ∀ m, o = some m → m ∉ ds) :
    o.toList.filter (· ∉ ds) = o.toList := by
  rw [List.filter_eq_self]
  intro m hm
  simpa using h m (Option.mem_toList.mp hm)

theorem Wired.cut (h : c.Wired ops) {c' : Circuit} {ds : List NodeId}
    (hds : ∀ n ∈ ds, (c.instruction? n).isSome) (hnum : c'.graph.Numbered)
    (hnode : ∀ m, c'.node? m = if m ∈ ds then none else c.node? m)
    (hin : c'.inputs = c.inputs) (hout : c'.outputs = c.outputs)
    (hth : c'.graph.Threaded fun w => (c.track ops w).filter (· ∉ ds)) : c.Cuts ops ds c' := by
  have hinput : ∀ w, c'.input? w = c.input? w := fun w => by unfold input?; rw [hin]
  have houtput : ∀ w, c'.output? w = c.output? w := fun w => by unfold output?; rw [hout]
  have hinst : ∀ m, c'.instruction? m = if m ∈ ds then none else c.instruction? m := by
    intro m
    unfold instruction?
    rw [hnode]
    split <;> rfl
  have hop : ∀ n ∈ ds, ∃ i, c.node? n = some (.op i) := by
    intro n hn
    obtain ⟨i, hi⟩ := Option.isSome_iff_exists.mp (hds n hn)
    exact ⟨i, instruction?_eq_some.mp hi⟩
  have hends : ∀ w m, (c.input? w = some m → m ∉ ds) ∧ (c.output? w = some m → m ∉ ds) := by
    intro w m
    constructor
    · intro hm hmem
      obtain ⟨i, hi⟩ := hop m hmem
      simp [(h.input_iff w m).mp hm] at hi
    · intro hm hmem
      obtain ⟨i, hi⟩ := hop m hmem
      simp [(h.output_iff w m).mp hm] at hi
  have htrack : c'.track (without ops ds) = fun w => (c.track ops w).filter (· ∉ ds) := by
    funext w
    unfold track without
    rw [hinput, houtput, List.filter_append, List.filter_append,
      filter_toList_of_not_mem fun m => (hends w m).1, filter_toList_of_not_mem fun m => (hends w m).2]
  refine ⟨hnode, hin, hout, hnum, hin ▸ h.keys, by rw [hin, hout, h.same_keys], ?_, ?_, ?_, ?_, ?_, ?_⟩
  · intro w m
    rw [hinput, hnode, h.input_iff]
    by_cases hm : m ∈ ds
    · obtain ⟨i, hi⟩ := hop m hm
      simp [hm, hi]
    · rw [if_neg hm]
  · intro w m
    rw [houtput, hnode, h.output_iff]
    by_cases hm : m ∈ ds
    · obtain ⟨i, hi⟩ := hop m hm
      simp [hm, hi]
    · rw [if_neg hm]
  · intro m j hj
    rw [hinst] at hj
    split at hj
    · cases hj
    · have := h.accepted m j hj
      rw [refusal?_eq_none] at this ⊢
      simpa only [hasWire, hinput] using this
  · intro w m
    rw [hinst, without, List.mem_filter, h.mem_ops]
    by_cases hm : m ∈ ds <;> simp [hm]
  · rw [htrack]
    exact hth
  · obtain ⟨rank, hr⟩ := h.ranked
    refine ⟨rank, ?_⟩
    intro w
    rw [htrack]
    exact (hr w).filter _

theorem filter_bypasses (c : Circuit) (n : NodeId) (w : Wire) :
    (c.bypasses n).filter (·.label == w) =
      ((c.graph.incoming n).filter (·.label == w)).flatMap fun e =>
        ((c.graph.outgoing n).filter (·.label == w)).map fun f => ⟨e.source, f.target, w⟩ := by
  unfold bypasses
  rw [List.filter_flatMap]
  induction c.graph.incoming n with
  | nil => rfl
  | cons e es ih =>
    rw [List.flatMap_cons, ih, List.filter_cons, List.filter_map]
    by_cases he : e.label = w
    · simp [Function.comp_def, he]
    · have : (e.label == w) = false := by simpa using he
      simp [Function.comp_def, this]

theorem filter_not_mem_singleton {p r : List NodeId} {n : NodeId} (h : (p ++ n :: r).Nodup) :
    (p ++ n :: r).filter (· ∉ [n]) = p ++ r := by
  have hn := (List.nodup_cons.mp (List.nodup_middle.mp h)).1
  have hself : (p ++ r).filter (· ∉ [n]) = p ++ r := by
    rw [List.filter_eq_self]
    intro m hm
    have : m ≠ n := fun e => hn (e ▸ hm)
    simpa using this
  rw [List.filter_append] at hself ⊢
  rw [List.filter_cons_of_neg (by simp), hself]

theorem Wired.perm_bypasses (h : c.Wired ops) {n : NodeId} {i : Instruction}
    (hi : c.instruction? n = some i) (w : Wire) :
    ((((c.bypasses n).reverse ++ c.graph.edges).filter (Edge.avoids n)).filter (·.label == w)).Perm
      (pathEdges w ((c.track ops w).filter (· ∉ [n]))) := by
  have hd := h.nodup_track w
  have hedges := h.threaded w
  rw [List.filter_comm, List.filter_append, List.filter_reverse, filter_bypasses, List.filter_append]
  by_cases hn : n ∈ ops w
  · obtain ⟨p, a, b, r, hp⟩ := h.exists_between hn
    have hp' : c.track ops w = (p ++ [a]) ++ n :: b :: r := by simpa using hp
    have hin : (c.graph.incoming n).filter (·.label == w) = [⟨a, n, w⟩] :=
      h.edgesAt_eq .backward (h.mem_edges_of_track hp)
    have hout : (c.graph.outgoing n).filter (·.label == w) = [⟨n, b, w⟩] :=
      h.edgesAt_eq .forward (h.mem_edges_of_track hp')
    rw [hin, hout]
    rw [hp] at hd hedges
    have hrest := filter_not_mem_singleton (hp' ▸ h.nodup_track w)
    rw [hp', hrest, List.append_assoc, List.singleton_append]
    have hab : Edge.avoids n ⟨a, b, w⟩ = true := by
      have hne : n ∉ p ++ [a] ++ b :: r :=
        (List.nodup_cons.mp (List.nodup_middle.mp (hp' ▸ h.nodup_track w))).1
      have ha : a ≠ n := fun e => hne (by simp [e])
      have hb : b ≠ n := fun e => hne (by simp [e])
      simp [Edge.avoids, ha, hb]
    have hone : ([⟨a, b, w⟩] : List (Edge Wire)).filter (Edge.avoids n) = [⟨a, b, w⟩] := by simp [hab]
    have := perm_past w hd hedges
    simpa [hone] using this
  · have hnt : n ∉ c.track ops w := fun hm => hn ((h.mem_track_iff hi w).mp hm)
    have hself : (c.track ops w).filter (· ∉ [n]) = c.track ops w := by
      rw [List.filter_eq_self]
      intro m hm
      have : m ≠ n := fun e => hnt (e ▸ hm)
      simpa using this
    have hfilter := hedges.filter (Edge.avoids n)
    rw [filter_avoids_of_not_mem w hnt] at hfilter
    rw [h.threaded.edgesAt_eq_nil .backward hnt, hself]
    simpa using hfilter

theorem Wired.remove_spec (h : c.Wired ops) {n : NodeId} {i : Instruction}
    (hi : c.instruction? n = some i) :
    ∃ c', c.remove n = (.ok i, c') ∧ c.Cuts ops [n] c' := by
  have hnode := instruction?_eq_some.mp hi
  have hlive : c.graph.isLive n := isLive_iff.mpr ⟨_, hnode⟩
  refine ⟨_, by rw [remove, hnode], ?_⟩
  rw [Graph.foldl_addEdge]
  have hnum : ({ c.graph with edges := (c.bypasses n).reverse ++ c.graph.edges } :
      Graph Node Wire).Numbered := ⟨h.numbered.nodup, h.numbered.vacant⟩
  refine h.cut (by simp [hi]) (hnum.removeNode n) ?_ rfl rfl ?_
  · intro m
    simp only [List.mem_singleton]
    exact Graph.node?_removeNode _ n m
  · intro w
    have hedges := Graph.edges_removeNode (n := n)
      (g := { c.graph with edges := (c.bypasses n).reverse ++ c.graph.edges }) hlive
    exact (List.Perm.of_eq (congrArg (List.filter (·.label == w)) hedges)).trans (h.perm_bypasses hi w)

namespace Cuts

variable {c' : Circuit} {ds : List NodeId}

theorem input? (s : c.Cuts ops ds c') (w : Wire) : c'.input? w = c.input? w := by
  unfold Circuit.input?
  rw [s.inputs]

theorem output? (s : c.Cuts ops ds c') (w : Wire) : c'.output? w = c.output? w := by
  unfold Circuit.output?
  rw [s.outputs]

theorem hasWire (s : c.Cuts ops ds c') (w : Wire) : c'.hasWire w = c.hasWire w := by
  unfold Circuit.hasWire
  rw [s.input?]

theorem instruction? (s : c.Cuts ops ds c') (m : NodeId) :
    c'.instruction? m = if m ∈ ds then none else c.instruction? m := by
  unfold Circuit.instruction?
  rw [s.node?]
  split <;> rfl

theorem not_mem_of_live (s : c.Cuts ops ds c') {m : NodeId} {a : Node} (hm : c'.node? m = some a) :
    m ∉ ds := by
  intro hmem
  rw [s.node?, if_pos hmem] at hm
  cases hm

theorem track (s : c.Cuts ops ds c') (w : Wire) :
    c'.track (without ops ds) w = (c.track ops w).filter (· ∉ ds) := by
  have hi : ∀ m, c.input? w = some m → m ∉ ds := fun m hm =>
    s.not_mem_of_live ((s.wired.input_iff w m).mp ((s.input? w).trans hm))
  have ho : ∀ m, c.output? w = some m → m ∉ ds := fun m hm =>
    s.not_mem_of_live ((s.wired.output_iff w m).mp ((s.output? w).trans hm))
  unfold Circuit.track without
  rw [s.input?, s.output?, List.filter_append, List.filter_append, filter_toList_of_not_mem hi,
    filter_toList_of_not_mem ho]

theorem nodesOn (s : c.Cuts ops ds c') (h : c.Wired ops) (w : Wire) :
    c'.nodesOn w = (c.nodesOn w).map (List.filter (· ∉ ds)) := by
  by_cases hw : c.hasWire w
  · rw [h.nodesOn_eq hw, s.wired.nodesOn_eq (by rwa [s.hasWire])]
    rfl
  · rw [nodesOn_eq_error hw, nodesOn_eq_error (by rwa [s.hasWire])]
    rfl

theorem nodesOn_filter (s : c.Cuts ops ds c') (h : c.Wired ops) {P : NodeId → Bool}
    (hds : ∀ n, n ∈ ds ↔ P n) (w : Wire) :
    c'.nodesOn w = (c.nodesOn w).map (List.filter fun n => !P n) := by
  have hkeep : (fun n => decide (n ∉ ds)) = fun n => !P n := by
    funext n
    by_cases hn : P n <;> simp [hds, hn]
  rw [s.nodesOn h, hkeep]

end Cuts

theorem remove_of_not_op {n : NodeId} (hn : c.instruction? n = none) :
    (c.remove n).2 = c ∧ ∃ e, (c.remove n).1 = .error e := by
  unfold instruction? at hn
  unfold remove
  cases hnode : c.node? n with
  | none => exact ⟨rfl, _, rfl⟩
  | some a =>
    cases a with
    | input w => exact ⟨rfl, _, rfl⟩
    | output w => exact ⟨rfl, _, rfl⟩
    | op i => simp [hnode, Node.instruction?] at hn

theorem Wired.hasWire_remove (h : c.Wired ops) (n : NodeId) (w : Wire) :
    (c.remove n).2.hasWire w = c.hasWire w := by
  cases hn : c.instruction? n with
  | none => rw [(remove_of_not_op hn).1]
  | some i =>
    obtain ⟨c', heq, s⟩ := h.remove_spec hn
    rw [heq, s.hasWire]

/-! ## Taking operations out one after another -/

/-- The operations `ds` are taken out of `c` in this order, each while it satisfies `P`. -/
inductive Drops (P : Circuit → NodeId → Prop) : Circuit → List NodeId → Circuit → Prop
  | nil (c : Circuit) : Drops P c [] c
  | cons {c c' : Circuit} {n : NodeId} {ds : List NodeId} (hn : P c n)
      (hds : Drops P (c.remove n).2 ds c') : Drops P c (n :: ds) c'

theorem Drops.imp {P Q : Circuit → NodeId → Prop} (hPQ : ∀ c n, P c n → Q c n) {ds : List NodeId}
    {c' : Circuit} (h : Drops P c ds c') : Drops Q c ds c' := by
  induction h with
  | nil => exact .nil _
  | cons hn _ ih => exact .cons (hPQ _ _ hn) ih

theorem Cuts.trans {ds es : List NodeId} {c' c'' : Circuit} (s : c.Cuts ops ds c')
    (s' : c'.Cuts (without ops ds) es c'') : c.Cuts ops (ds ++ es) c'' := by
  have hops : without (without ops ds) es = without ops (ds ++ es) := by
    funext w
    unfold without
    rw [List.filter_filter]
    apply List.filter_congr
    intro m _
    by_cases hd : m ∈ ds <;> by_cases he : m ∈ es <;> simp [hd, he]
  refine ⟨?_, s'.inputs.trans s.inputs, s'.outputs.trans s.outputs, hops ▸ s'.wired⟩
  intro m
  rw [s'.node?, s.node?]
  by_cases hd : m ∈ ds <;> by_cases he : m ∈ es <;> simp [hd, he]

theorem Cuts.congr {ds es : List NodeId} {c' : Circuit} (s : c.Cuts ops ds c') (h : ∀ n, n ∈ ds ↔ n ∈ es) :
    c.Cuts ops es c' := by
  have hops : without ops ds = without ops es := by
    funext w
    simp only [without, h]
  refine ⟨?_, s.inputs, s.outputs, hops ▸ s.wired⟩
  intro m
  rw [s.node?]
  simp only [h]

theorem Cuts.nil (h : c.Wired ops) : c.Cuts ops [] c := by
  have hops : without ops [] = ops := by
    funext w
    simp [without]
  exact ⟨by simp, rfl, rfl, hops.symm ▸ h⟩

theorem Drops.cuts {P : Circuit → NodeId → Prop} (hP : ∀ c n, P c n → (c.instruction? n).isSome)
    {ds : List NodeId} {c' : Circuit} (h : Drops P c ds c') : ∀ {ops}, c.Wired ops → c.Cuts ops ds c' := by
  induction h with
  | nil c => exact fun hc => .nil hc
  | @cons c c' n ds hn _ ih =>
    intro ops hc
    obtain ⟨i, hi⟩ := Option.isSome_iff_exists.mp (hP c n hn)
    obtain ⟨c₁, heq, s⟩ := hc.remove_spec hi
    rw [heq] at ih
    exact s.trans (ih s.wired)

end Circuit

end QuantumCircuit
