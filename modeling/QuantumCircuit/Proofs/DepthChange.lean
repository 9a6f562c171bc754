import QuantumCircuit.Proofs.LocalEdits
import QuantumCircuit.Proofs.Statistics

/-!
# How edits change the depth

If one stack of layers has come at most `k` further than another, it stays so when the same
instruction is placed on both. With `k = 0` this shows that a program takes up no more layers when
instructions are left out of it, so taking operations out of a circuit never adds to its depth.
With `k = 1` it shows that an instruction on at most one wire accounts for at most one layer.
-/

namespace QuantumCircuit

namespace Layers

/-- On every wire and in all, `s` has come at most `k` layers further than `t`. -/
structure Within (k : Nat) (s t : Layers) : Prop where
  reached : ∀ w, s.reached w ≤ t.reached w + k
  used : s.used ≤ t.used + k

def Covered (s : Layers) : Prop := ∀ w, s.reached w ≤ s.used

variable {k : Nat} {s t : Layers} {i : Instruction} {is js : List Instruction}

theorem reached_le_under {ws : List Wire} {w : Wire} (hw : w ∈ ws) (s : Layers) :
    s.reached w ≤ s.under ws :=
  le_foldr_max (List.mem_map_of_mem hw)

theorem under_le_iff {ws : List Wire} : s.under ws ≤ k ↔ ∀ w ∈ ws, s.reached w ≤ k := by
  simp [under, foldr_max_le_iff]

theorem Within.place (h : s.Within k t) (i : Instruction) : (s.place i).Within k (t.place i) := by
  have hunder : s.under i.wires ≤ t.under i.wires + k := by
    rw [under_le_iff]
    intro w hw
    have hs := h.reached w
    have ht := reached_le_under hw t
    omega
  constructor
  · intro w
    have hw := h.reached w
    by_cases hmem : w ∈ i.wires
    · simp only [Layers.place, put, if_pos hmem]
      omega
    · simpa only [Layers.place, put, if_neg hmem] using hw
  · have hused := h.used
    simp only [Layers.place, put]
    omega

theorem Within.foldl (h : s.Within k t) (is : List Instruction) :
    (is.foldl Layers.place s).Within k (is.foldl Layers.place t) := by
  induction is generalizing s t with
  | nil => exact h
  | cons i is ih => exact ih (h.place i)

theorem Within.place_right (h : s.Within 0 t) (i : Instruction) : s.Within 0 (t.place i) := by
  constructor
  · intro w
    have hw := h.reached w
    by_cases hmem : w ∈ i.wires
    · have ht := reached_le_under hmem t
      simp only [Layers.place, put, if_pos hmem]
      omega
    · simpa only [Layers.place, put, if_neg hmem] using hw
  · have hused := h.used
    simp only [Layers.place, put]
    omega

theorem Within.foldl_sublist (hsub : is.Sublist js) (h : s.Within 0 t) :
    (is.foldl Layers.place s).Within 0 (js.foldl Layers.place t) := by
  induction hsub generalizing s t with
  | slnil => exact h
  | cons i _ ih => exact ih (h.place_right i)
  | cons_cons i _ ih => exact ih (h.place i)

theorem Covered.place (hs : s.Covered) (i : Instruction) : (s.place i).Covered := by
  intro w
  have hw := hs w
  by_cases hmem : w ∈ i.wires
  · simp only [Layers.place, put, if_pos hmem]
    omega
  · simp only [Layers.place, put, if_neg hmem]
    omega

theorem covered_start : start.Covered := fun _ => Nat.le_refl 0

theorem Covered.foldl (hs : s.Covered) (is : List Instruction) : (is.foldl Layers.place s).Covered := by
  induction is generalizing s with
  | nil => exact hs
  | cons i is ih => exact ih (hs.place i)

theorem Covered.used_place_le (hs : s.Covered) (i : Instruction) : (s.place i).used ≤ s.used + 1 := by
  have hunder : s.under i.wires ≤ s.used := under_le_iff.mpr fun w _ => hs w
  simp only [Layers.place, put]
  omega

theorem Covered.place_within (hs : s.Covered) (hi : i.wires.length ≤ 1) : (s.place i).Within 1 s := by
  refine ⟨?_, hs.used_place_le i⟩
  intro w
  by_cases hmem : w ∈ i.wires
  · -- the wire is the only one, so nothing else lifts it
    have hunder : s.under i.wires ≤ s.reached w := by
      rw [under_le_iff]
      intro v hv
      obtain ⟨u, hu⟩ := List.length_eq_one_iff.mp
        (Nat.le_antisymm hi (List.length_pos_of_mem hmem))
      rw [hu, List.mem_singleton] at hmem hv
      rw [hv, hmem]
    simp only [Layers.place, put, if_pos hmem]
    omega
  · simp only [Layers.place, put, if_neg hmem]
    omega

end Layers

/-! ## Programs -/

section
variable {is js : List Instruction} {i : Instruction}

theorem layersOf_concat (is : List Instruction) (i : Instruction) :
    layersOf (is ++ [i]) = layersOf is ∨ layersOf (is ++ [i]) = layersOf is + 1 := by
  have hle := (Layers.covered_start.foldl is).used_place_le i
  have hge : (is.foldl Layers.place .start).used ≤ ((is.foldl Layers.place .start).place i).used :=
    Nat.le_max_left _ _
  simp only [layersOf, List.foldl_append, List.foldl_cons, List.foldl_nil]
  omega

theorem layersOf_le_of_sublist (h : is.Sublist js) : layersOf is ≤ layersOf js :=
  (Layers.Within.foldl_sublist h ⟨fun _ => Nat.le_refl _, Nat.le_refl _⟩).used

theorem layersOf_middle_le (hi : i.wires.length ≤ 1) :
    layersOf (is ++ i :: js) ≤ layersOf (is ++ js) + 1 := by
  have h := ((Layers.covered_start.foldl is).place_within hi).foldl js
  simpa [layersOf] using h.used

end

/-! ## Circuits -/

namespace Circuit

variable {c c' : Circuit} {ops : Wire → List NodeId} {i : Instruction} {n : NodeId} {ds : List NodeId}

theorem Wired.depth_append (h : c.Wired ops) (hok : c.append i = (.ok n, c')) :
    c'.depth = c.depth ∨ c'.depth = c.depth + 1 := by
  obtain ⟨m, d, heq, hd, -⟩ := h.holds_readOut.append (refusal?_of_append hok)
  rw [hok] at heq
  cases heq
  rw [hd.depth_eq, h.holds_readOut.depth_eq]
  exact layersOf_concat _ i

theorem Cuts.depth_le (s : c.Cuts ops ds c') (h : c.Wired ops) : c'.depth ≤ c.depth := by
  have hl := h.linear_readOut
  rw [h.depth_eq hl, s.wired.depth_eq (s.linear hl), s.filterMap_instruction?]
  exact layersOf_le_of_sublist (List.filter_sublist.filterMap _)

theorem Cuts.depth_le_succ (s : c.Cuts ops [n] c') (h : c.Wired ops) (hi : c.instruction? n = some i)
    (hone : i.wires.length ≤ 1) : c.depth ≤ c'.depth + 1 := by
  have hl := h.linear_readOut
  obtain ⟨a, b, hab⟩ := List.append_of_mem ((hl.mem_iff n).mpr (by rw [hi]; rfl))
  rw [hab] at hl
  rw [h.depth_eq hl, s.wired.depth_eq (s.linear hl), s.filterMap_instruction?,
    filter_not_mem_singleton hl.nodup, List.filterMap_append, List.filterMap_append,
    List.filterMap_cons_some hi]
  exact layersOf_middle_le hone

theorem Wired.depth_sweepAll_le (h : c.Wired ops) (ks : List CleanupPass) :
    (c.sweepAll ks).depth ≤ c.depth := by
  induction ks generalizing c ops with
  | nil => exact Nat.le_refl _
  | cons k ks ih =>
    obtain ⟨ds, -, s⟩ := k.sweep_cuts h
    exact Nat.le_trans (ih s.wired) (s.depth_le h)

theorem instruction?_of_remove (hok : c.remove n = (.ok i, c')) : c.instruction? n = some i := by
  cases hn : c.instruction? n with
  | none =>
    obtain ⟨-, e, he⟩ := remove_of_not_op hn
    rw [hok] at he
    cases he
  | some j =>
    rw [remove, instruction?_eq_some.mp hn] at hok
    cases hok
    rfl

end Circuit

/-- **The depth moves with the edits.** An instruction that is taken in adds at most one to it. An
operation that is taken out adds nothing, and takes away at most one if it is on at most one wire.
So no run of the cleanup passes, alone or in a pipeline, adds to the depth. -/
theorem depth_moves_with_edits {κ : Type} [DecidableEq κ] {V : κ → Type} {c : Circuit}
    (hc : c.Reachable) :
    (∀ i n c', c.append i = (.ok n, c') → c'.depth = c.depth ∨ c'.depth = c.depth + 1) ∧
      (∀ n i c', c.remove n = (.ok i, c') → c'.depth ≤ c.depth ∧
        (i.wires.length ≤ 1 → c.depth ≤ c'.depth + 1)) ∧
      ∀ (p : Properties V) (run : CleanupRun), (run.run c p).circuit.depth ≤ c.depth := by
  obtain ⟨ops, h⟩ := hc.wired
  refine ⟨fun i n c' hok => h.depth_append hok, ?_, ?_⟩
  · intro n i c' hok
    have hi := Circuit.instruction?_of_remove hok
    obtain ⟨d, heq, s⟩ := h.remove_spec hi
    rw [hok] at heq
    cases heq
    exact ⟨s.depth_le h, s.depth_le_succ h hi⟩
  · intro p run
    rw [(CleanupRun.accounts_run h p run).circuit]
    exact h.depth_sweepAll_le run.passes

def bridged : Circuit :=
  (Circuit.ofSize 2 0).appendAll [.gateOn .h ⟨0⟩, .gateOn .h ⟨0⟩, .gateAcross .cx ⟨0⟩ ⟨1⟩,
    .gateOn .h ⟨1⟩, .gateOn .h ⟨1⟩, .reset ⟨1⟩]

theorem depth_of_bridged :
    let c := (bridged.append (.gateOn .x ⟨1⟩)).2
    let d := (bridged.remove 4).2
    let o := CleanupRun.run bridged (.empty : Properties fun _ : Empty => Unit)
      (.pipeline [.merge, .trim] true)
    bridged.Reachable ∧ bridged.depth = 6 ∧ (c.depth = 6 ∨ c.depth = 7) ∧
      d.depth ≤ 6 ∧ 6 ≤ d.depth + 1 ∧ (bridged.remove 6).2.depth ≤ 6 ∧
      (bridged.remove 6).2.depth = 3 ∧ o.circuit.depth ≤ 6 := by
  intro c d o
  have hreach : bridged.Reachable := (Circuit.reachable_ofSize 2 0).appendAll _
  have hdepth : bridged.depth = 6 := by decide +kernel
  obtain ⟨happend, hremove, hrun⟩ := depth_moves_with_edits (V := fun _ : Empty => Unit) hreach
  rw [hdepth] at happend hremove hrun
  have hc : (bridged.append (.gateOn .x ⟨1⟩)).1 = .ok 10 := by decide +kernel
  have hd : (bridged.remove 4).1 = .ok (.gateOn .h ⟨0⟩) := by decide +kernel
  have hx : (bridged.remove 6).1 = .ok (.gateAcross .cx ⟨0⟩ ⟨1⟩) := by decide +kernel
  obtain ⟨hle, hge⟩ := hremove 4 _ d (Prod.ext hd rfl)
  exact ⟨hreach, hdepth, happend _ 10 c (Prod.ext hc rfl), hle, hge (by decide),
    (hremove 6 _ _ (Prod.ext hx rfl)).1, by decide +kernel, hrun .empty _⟩

end QuantumCircuit
