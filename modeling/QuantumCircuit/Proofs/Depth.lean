import Mathlib.Data.List.MinMax
import Mathlib.Order.Nat
import QuantumCircuit.Proofs.Programs

/-!
# Depth

The instructions of a program are put into layers: each goes into the first layer that none
of its wires has reached. Instructions without a common wire can be put in either order. The
depth of a circuit is the number of layers that its instructions take up in any linear order,
so it depends neither on the numbers of the nodes nor on the order of the edges.
-/

namespace QuantumCircuit

/-- The layer that each wire has reached, and the number of layers in use. -/
@[ext] structure Layers where
  reached : Wire → Nat
  used : Nat

theorem foldr_max_le_iff {l : List Nat} {k : Nat} : l.foldr max 0 ≤ k ↔ ∀ x ∈ l, x ≤ k :=
  ⟨fun h _ hx => Nat.le_trans (List.le_max_of_le hx (Nat.le_refl _)) h,
    List.max_le_of_forall_le l k⟩

theorem le_foldr_max {l : List Nat} {x : Nat} (hx : x ∈ l) : x ≤ l.foldr max 0 :=
  foldr_max_le_iff.mp (Nat.le_refl _) x hx

namespace Layers

def start : Layers := ⟨fun _ => 0, 0⟩

def under (s : Layers) (ws : List Wire) : Nat := (ws.map s.reached).foldr max 0

/-- Brings the wires up to `height` layers above the last that one of them has reached. -/
def put (s : Layers) (ws : List Wire) (height : Nat) : Layers where
  reached w := if w ∈ ws then s.under ws + height else s.reached w
  used := max s.used (s.under ws + height)

def place (s : Layers) (i : Instruction) : Layers := s.put i.wires 1

theorem under_put (s : Layers) {vs ws : List Wire} (h : ∀ w ∈ ws, w ∉ vs) (height : Nat) :
    (s.put vs height).under ws = s.under ws := by
  unfold under
  congr 1
  apply List.map_congr_left
  intro w hw
  simp only [put, if_neg (h w hw)]

theorem place_comm {a b : Instruction} (h : a.Apart b) (s : Layers) :
    (s.place a).place b = (s.place b).place a := by
  have ha : (s.place b).under a.wires = s.under a.wires := s.under_put h 1
  have hb : (s.place a).under b.wires = s.under b.wires :=
    s.under_put (fun w hw hwa => h w hwa hw) 1
  apply Layers.ext
  · funext w
    simp only [place, put] at ha hb ⊢
    rw [ha, hb]
    by_cases hwa : w ∈ a.wires
    · simp [hwa, h w hwa]
    · simp [hwa]
  · simp only [place, put] at ha hb ⊢
    rw [ha, hb]
    omega

theorem put_end {s : Layers} {w : Wire} (h : s.reached w ≤ s.used) : s.put [w] 0 = s := by
  apply Layers.ext
  · funext v
    by_cases hv : v = w <;> simp [put, under, hv]
  · simpa [put, under] using h

end Layers

def layersOf (is : List Instruction) : Nat := (is.foldl Layers.place .start).used

theorem layersOf_eq_of_swaps {is js : List Instruction} (h : Swaps Instruction.Apart is js) :
    layersOf is = layersOf js := by
  unfold layersOf
  rw [h.foldl_eq fun a b hab s => Layers.place_comm hab s]

/-! ## Levels and layers -/

def Node.wires : Node → List Wire
  | input w => [w]
  | output w => [w]
  | op i => i.wires

namespace Circuit

variable {c : Circuit} {ops : Wire → List NodeId} {order done rest : List NodeId} {n : NodeId}
  {table : List (NodeId × Nat)} {s : Layers}

theorem Wired.mem_track (h : c.Wired ops) {a : Node} (ha : c.node? n = some a) (w : Wire) :
    n ∈ c.track ops w ↔ w ∈ a.wires := by
  have hin := h.input_iff w n
  have hout := h.output_iff w n
  have hops := h.mem_ops w n
  simp only [instruction?_eq_some] at hops
  simp only [track, List.mem_append, Option.mem_toList, hin, hout, hops, ha]
  cases a <;> simp [Node.wires, eq_comm]

/-- The table holds the levels of the nodes `done`: every wire has reached the level of the last
of them on it. -/
structure Levelled (c : Circuit) (ops : Wire → List NodeId) (done : List NodeId)
    (table : List (NodeId × Nat)) (s : Layers) : Prop where
  fresh : ∀ n, n ∉ done → table.lookup n = none
  reached : ∀ w, s.reached w =
    ((done.filter (· ∈ c.track ops w)).getLast?.bind fun n => table.lookup n).getD 0
  used : s.used = (table.map (·.2)).foldr max 0

theorem Wired.track_split (h : c.Wired ops) (hf : c.graph.Finished (done ++ n :: rest))
    (hp : (done ++ n :: rest).Perm c.graph.nodes) {w : Wire} (hn : n ∈ c.track ops w) :
    c.track ops w = done.filter (· ∈ c.track ops w) ++ n :: rest.filter (· ∈ c.track ops w) := by
  have hself := filter_mem_eq_of_sublist (h.track_sublist hf hp w) hf.nodup
  rw [List.filter_append, List.filter_cons_of_pos (by simpa using hn)] at hself
  exact hself.symm

namespace Levelled

theorem reached_le (hs : c.Levelled ops done table s) (w : Wire) : s.reached w ≤ s.used := by
  rw [hs.reached, hs.used]
  cases hlast : (done.filter (· ∈ c.track ops w)).getLast? with
  | none => exact Nat.zero_le _
  | some m =>
    cases hm : table.lookup m with
    | none => simp [hm]
    | some k =>
      obtain ⟨l₁, l₂, rfl, -⟩ := List.lookup_eq_some_iff.mp hm
      simp only [Option.bind_some, hm, Option.getD_some]
      exact le_foldr_max (by simp)

theorem sourceLevel_eq (hs : c.Levelled ops done table s) (h : c.Wired ops)
    (hf : c.graph.Finished (done ++ n :: rest)) (hp : (done ++ n :: rest).Perm c.graph.nodes)
    {a : Node} (ha : c.node? n = some a) : c.graph.sourceLevel table n = s.under a.wires := by
  have hlast : ∀ {w p m t}, c.track ops w = p ++ m :: n :: t →
      s.reached w = (table.lookup m).getD 0 := by
    intro w p m t ht
    have hn : n ∈ c.track ops w := by rw [ht]; simp
    have hsplit : (p ++ [m]) ++ n :: t =
        done.filter (· ∈ c.track ops w) ++ n :: rest.filter (· ∈ c.track ops w) := by
      rw [← h.track_split hf hp hn, ht]; simp
    have hd : ((p ++ [m]) ++ n :: t).Nodup := by
      have := h.nodup_track w
      rw [ht] at this
      simpa using this
    rw [hs.reached, ← (split_unique hd hsplit).1]
    simp
  apply Nat.le_antisymm
  · refine foldr_max_le_iff.mpr fun x hx => ?_
    obtain ⟨e, he, rfl⟩ := List.mem_map.mp hx
    obtain ⟨hmem, rfl⟩ := Graph.mem_edgesAt.mp he
    obtain ⟨p, t, ht⟩ := h.threaded.mem_edges.mp hmem
    have hw : e.label ∈ a.wires := (h.mem_track ha _).mp (h.threaded.near_mem .backward hmem)
    rw [← hlast ht]
    exact le_foldr_max (List.mem_map_of_mem hw)
  · refine foldr_max_le_iff.mpr fun x hx => ?_
    obtain ⟨w, hw, rfl⟩ := List.mem_map.mp hx
    have hsplit := h.track_split hf hp ((h.mem_track ha w).mpr hw)
    rcases List.eq_nil_or_concat (done.filter (· ∈ c.track ops w)) with hnil | ⟨p, m, hpm⟩
    · rw [hs.reached, hnil]
      exact Nat.zero_le _
    · have ht : c.track ops w = p ++ m :: n :: rest.filter (· ∈ c.track ops w) := by
        rw [hpm] at hsplit
        simpa using hsplit
      rw [hlast ht]
      refine le_foldr_max (List.mem_map.mpr ⟨⟨m, n, w⟩, ?_, rfl⟩)
      exact Graph.mem_edgesAt.mpr ⟨h.mem_edges_of_track ht, rfl⟩

theorem step (hs : c.Levelled ops done table s) (h : c.Wired ops)
    (hf : c.graph.Finished (done ++ n :: rest)) (hp : (done ++ n :: rest).Perm c.graph.nodes)
    {a : Node} (ha : c.node? n = some a) (height : Nat) :
    c.Levelled ops (done ++ [n]) ((n, c.graph.sourceLevel table n + height) :: table)
      (s.put a.wires height) := by
  rw [hs.sourceLevel_eq h hf hp ha]
  have hn : n ∉ done := fun hmem => (List.nodup_append.mp hf.nodup).2.2 n hmem n (by simp) rfl
  refine ⟨?_, ?_, ?_⟩
  · intro m hm
    simp only [List.mem_append, List.mem_singleton, not_or] at hm
    rw [List.lookup_cons, beq_false_of_ne hm.2]
    exact hs.fresh m hm.1
  · intro w
    rw [List.filter_append]
    by_cases hw : w ∈ a.wires
    · have hmem := (h.mem_track ha w).mpr hw
      simp [Layers.put, hw, hmem]
    · have hmem := mt (h.mem_track ha w).mp hw
      rw [List.filter_cons_of_neg (by simpa using hmem), List.filter_nil, List.append_nil]
      simp only [Layers.put, if_neg hw, hs.reached]
      cases hlast : (done.filter (· ∈ c.track ops w)).getLast? with
      | none => rfl
      | some m =>
        have hmn : m ≠ n := fun e => hn (e ▸ (List.mem_filter.mp (List.mem_of_getLast? hlast)).1)
        simp only [Option.bind_some, List.lookup_cons, beq_false_of_ne hmn]
  · simp only [Layers.put, hs.used, List.map_cons, List.foldr_cons]
    exact Nat.max_comm _ _

/-- Levels are given to the operations as layers are to their instructions. -/
theorem run (h : c.Wired ops) : ∀ (rest : List NodeId) {done : List NodeId}
    {table : List (NodeId × Nat)} {s : Layers}, c.Levelled ops done table s →
    c.graph.Finished (done ++ rest) → (done ++ rest).Perm c.graph.nodes →
    c.Levelled ops (done ++ rest)
      (rest.foldl (fun table n => (n, c.graph.sourceLevel table n + c.weight n) :: table) table)
      ((rest.filterMap c.instruction?).foldl Layers.place s)
  | [], done, table, s, hs, _, _ => by simpa using hs
  | n :: rest, done, table, s, hs, hf, hp => by
    have hlive : n ∈ c.graph.nodes := hp.mem_iff.mp (by simp)
    obtain ⟨a, ha⟩ := isLive_iff.mp (Graph.mem_nodes.mp hlive)
    have hstep := hs.step h hf hp ha (c.weight n)
    have hassoc : done ++ n :: rest = (done ++ [n]) ++ rest := by simp
    rw [hassoc] at hf hp ⊢
    rw [List.foldl_cons]
    cases hi : c.instruction? n with
    | some i =>
      obtain rfl := Option.some.inj (ha.symm.trans (instruction?_eq_some.mp hi))
      have hweight : c.weight n = 1 := by rw [weight, hi]; rfl
      rw [List.filterMap_cons_some hi, List.foldl_cons]
      refine run h rest ?_ hf hp
      rw [hweight] at hstep ⊢
      exact hstep
    | none =>
      -- an end of a wire takes up no layer
      obtain ⟨w, hw⟩ : ∃ w, a.wires = [w] := by
        cases a with
        | op i => rw [instruction?_eq_some.mpr ha] at hi; cases hi
        | input w => exact ⟨w, rfl⟩
        | output w => exact ⟨w, rfl⟩
      have hput : s.put a.wires (c.weight n) = s := by
        rw [hw, weight, hi]
        exact Layers.put_end (hs.reached_le w)
      rw [hput] at hstep
      rw [List.filterMap_cons_none hi]
      exact run h rest hstep hf hp

end Levelled

theorem Wired.depth_eq (h : c.Wired ops) {l : List NodeId} (hl : c.Linear ops l) :
    c.depth = layersOf (l.filterMap c.instruction?) := by
  obtain ⟨ho, hf, hp⟩ := Graph.topologicalOrder?_eq_some h.acyclic h.closed
  have hstart : c.Levelled ops [] [] .start := ⟨fun _ _ => rfl, fun _ => rfl, rfl⟩
  have hrun := Levelled.run h c.graph.searchOrder hstart hf hp
  have hread : c.graph.searchOrder.filterMap c.instruction? =
      (c.readOut.map (·.1)).filterMap c.instruction? := by
    rw [readOut_eq ho, List.filterMap_filter]
    apply List.filterMap_congr
    intro n _
    cases c.instruction? n <;> rfl
  calc c.depth = layersOf (c.graph.searchOrder.filterMap c.instruction?) := by
        rw [depth, ho]
        exact hrun.used.symm
    _ = layersOf (l.filterMap c.instruction?) := by
        rw [hread]
        exact layersOf_eq_of_swaps ((h.linear_readOut.swaps hl).filterMap h.apart_instructions)

end Circuit

end QuantumCircuit
