import QuantumCircuit.Proofs.Cleanup
import QuantumCircuit.Proofs.ReadOut

/-!
# The passes keep what a circuit means

An interpretation says what instructions do to a state and what is observed in the end.
Instructions without a common wire commute in it, so all linear orders of a circuit do the
same. A reset that a reset follows can be moved up to that one, which absorbs it, and a reset
that nothing follows can be moved to the end, where no one observes it.
-/

namespace QuantumCircuit

universe u v

/-- What instructions do to states, and what is observed of a state. Instructions without a
common wire commute, a reset absorbs a reset of one of its qubits right before it, and no one
observes a reset at the very end. -/
structure Interpretation (S : Type u) (O : Type v) where
  act : Instruction → S → S
  observe : S → O
  act_comm : ∀ a b, (∀ w ∈ a.wires, w ∉ b.wires) → ∀ s, act a (act b s) = act b (act a s)
  act_reset : ∀ q r, r.isReset → q ∈ r.qubits → ∀ s, act r (act (.reset q) s) = act r s
  observe_reset : ∀ q s, observe (act (.reset q) s) = observe s

namespace Interpretation

variable {S : Type u} {O : Type v} (m : Interpretation S O)

def run (c : Circuit) (s : S) : S := c.readOut.foldl (fun s p => m.act p.2 s) s

def actAt (c : Circuit) (n : NodeId) (s : S) : S :=
  match c.instruction? n with
  | some i => m.act i s
  | none => s

def runAt (c : Circuit) (l : List NodeId) (s : S) : S := l.foldl (fun s n => m.actAt c n s) s

variable {c c' : Circuit} {ops : Wire → List NodeId} {n : NodeId} {l : List NodeId}

theorem actAt_eq {i : Instruction} (h : c.instruction? n = some i) (s : S) :
    m.actAt c n s = m.act i s := by
  rw [actAt, h]

theorem runAt_cons (s : S) : m.runAt c (n :: l) s = m.runAt c l (m.actAt c n s) := rfl

theorem runAt_append (r : List NodeId) (s : S) :
    m.runAt c (l ++ r) s = m.runAt c r (m.runAt c l s) := List.foldl_append

theorem run_eq_runAt (c : Circuit) (s : S) : m.run c s = m.runAt c (c.readOut.map (·.1)) s := by
  rw [run, runAt, List.foldl_map]
  apply List.foldl_ext
  rintro s ⟨n, i⟩ hp
  rw [m.actAt_eq (Circuit.mem_readOut hp)]

/-! ## Linear orders -/

theorem actAt_comm (h : c.Wired ops) {a b : NodeId} (hab : Apart ops a b) (s : S) :
    m.actAt c a (m.actAt c b s) = m.actAt c b (m.actAt c a s) := by
  cases ha : c.instruction? a with
  | none => simp only [actAt, ha]
  | some i =>
    cases hb : c.instruction? b with
    | none => simp only [actAt, hb]
    | some j =>
      simp only [m.actAt_eq ha, m.actAt_eq hb]
      refine m.act_comm i j ?_ s
      intro w hi hj
      exact hab w ((h.mem_ops w a).mpr ⟨i, ha, hi⟩) ((h.mem_ops w b).mpr ⟨j, hb, hj⟩)

theorem runAt_eq_of_swaps (h : c.Wired ops) {l' : List NodeId} (hl : Swaps (Apart ops) l l') (s : S) :
    m.runAt c l s = m.runAt c l' s := by
  apply hl.foldl_eq
  intro a b hab s
  exact (m.actAt_comm h hab s).symm

theorem runAt_eq_of_linear (h : c.Wired ops) {l' : List NodeId} (hl : c.Linear ops l)
    (hl' : c.Linear ops l') (s : S) : m.runAt c l s = m.runAt c l' s :=
  m.runAt_eq_of_swaps h (hl.swaps hl') s

theorem run_eq_of_linear (h : c.Wired ops) (hl : c.Linear ops l) (s : S) : m.run c s = m.runAt c l s := by
  rw [run_eq_runAt]
  exact m.runAt_eq_of_linear h h.linear_readOut hl s

end Interpretation

/-! ## Taking out an idle reset -/

namespace Circuit

/-- Every reset of one qubit acts on no classical bit. -/
def PlainResets (c : Circuit) : Prop :=
  ∀ n i, c.instruction? n = some i → i.isReset → i.qubits.length = 1 → i.clbits = []

variable {c c' : Circuit} {ops : Wire → List NodeId} {n k : NodeId} {q : Qubit}

theorem PlainResets.instruction?_eq (h : c.PlainResets) (hq : c.loneReset? n = some q) :
    c.instruction? n = some (.reset q) := by
  obtain ⟨⟨o, qs, bs⟩, hi, hr, hqs⟩ := loneReset?_eq_some.mp hq
  obtain rfl : qs = [q] := hqs
  obtain rfl : bs = [] := h n _ hi hr rfl
  obtain rfl : o = .reset := by simpa [Instruction.isReset] using hr
  exact hi

theorem Cuts.plainResets {ds : List NodeId} (s : c.Cuts ops ds c') (h : c.PlainResets) :
    c'.PlainResets := by
  intro n i hi
  rw [s.instruction?] at hi
  split at hi
  · cases hi
  · exact h n i hi

end Circuit

namespace Interpretation

variable {S : Type u} {O : Type v} (m : Interpretation S O)
variable {c c' : Circuit} {ops : Wire → List NodeId} {n k : NodeId} {q : Qubit} {l : List NodeId}

theorem runAt_cuts {ds : List NodeId} (s : c.Cuts ops ds c') (l : List NodeId) (x : S) :
    m.runAt c' (l.filter (· ∉ ds)) x = m.runAt c (l.filter (· ∉ ds)) x := by
  apply List.foldl_ext
  intro x n hn
  have hn' : n ∉ ds := by simpa using (List.mem_filter.mp hn).2
  rw [actAt, actAt, s.instruction?, if_neg hn']

theorem runAt_later (h : c.Wired ops) (hn : c.instruction? n = some (.reset q)) {b : List NodeId}
    (hb : ∀ x ∈ b, x ∉ ops (.qubit q)) (r : List NodeId) (s : S) :
    m.runAt c (n :: (b ++ r)) s = m.runAt c r (m.act (.reset q) (m.runAt c b s)) := by
  have hfree : ∀ x ∈ b, Apart ops n x := by
    intro x hx w hw
    obtain ⟨i, hi, hwi⟩ := (h.mem_ops w n).mp hw
    obtain rfl := Option.some.inj (hn.symm.trans hi)
    obtain rfl : w = .qubit q := by simpa [Instruction.wires, Instruction.reset] using hwi
    exact hb x hx
  rw [m.runAt_eq_of_swaps h (.move r hfree), runAt_append, runAt_cons, m.actAt_eq hn]

theorem observe_idle (h : c.Wired ops) (hc : c.PlainResets) (hn : c.isIdle n) (hl : c.Linear ops l)
    (s : S) : m.observe (m.runAt c (l.filter (· ∉ [n])) s) = m.observe (m.runAt c l s) := by
  obtain ⟨q, k, hf, hend⟩ := Circuit.isIdle_iff.mp hn
  have hreset := hc.instruction?_eq (h.follower?_eq_some.mp hf).1
  obtain ⟨p, r, hops, hr⟩ := h.ops_after hf
  obtain ⟨a, b, rfl, hb⟩ := hl.split hops
  rw [Circuit.filter_not_mem_singleton hl.nodup, runAt_append, runAt_append]
  generalize m.runAt c a s = x
  rcases hr with ⟨rfl, -⟩ | ⟨t, rfl⟩
  · -- nothing follows on the qubit, so the reset moves to the end
    have hfree : ∀ y ∈ b, y ∉ ops (.qubit q) := by
      simpa using List.filter_eq_nil_iff.mp hb
    have hlast := m.runAt_later h hreset hfree [] x
    rw [List.append_nil] at hlast
    rw [hlast]
    exact (m.observe_reset q _).symm
  · -- the operation that follows is no end of the wire, so it is a reset
    obtain ⟨b, d, rfl, hfree, hk, -⟩ := List.filter_eq_cons_iff.mp hb
    obtain ⟨i, hi, hq⟩ := (h.mem_ops (.qubit q) k).mp (by simpa using hk)
    have hr : i.isReset := by
      rcases hend with hend | hend
      · rwa [Circuit.isResetAt_eq hi] at hend
      · have hnode := Circuit.instruction?_eq_some.mp hi
        rw [(h.output_iff _ k).mp hend] at hnode
        cases hnode
    rw [m.runAt_later h hreset (by simpa using hfree), runAt_append, runAt_cons, runAt_cons,
      m.actAt_eq hi, m.actAt_eq hi, m.act_reset q i hr (Circuit.qubit_mem_wires.mp hq)]

theorem observe_remove (h : c.Wired ops) (hc : c.PlainResets) (hn : c.isIdle n)
    (s : c.Cuts ops [n] c') (x : S) : m.observe (m.run c' x) = m.observe (m.run c x) := by
  rw [m.run_eq_of_linear s.wired (s.linear h.linear_readOut), m.runAt_cuts s,
    m.observe_idle h hc hn h.linear_readOut, ← run_eq_runAt]

theorem observe_drops {ds : List NodeId} (h : Circuit.Drops (fun c n => c.isIdle n) c ds c') :
    ∀ {ops}, c.Wired ops → c.PlainResets → ∀ x, m.observe (m.run c' x) = m.observe (m.run c x) := by
  induction h with
  | nil => exact fun _ _ _ => rfl
  | @cons c c' n ds hn _ ih =>
    intro ops h hc x
    obtain ⟨i, hi⟩ := Option.isSome_iff_exists.mp (Circuit.isSome_of_isIdle c n hn)
    obtain ⟨c₁, heq, s⟩ := h.remove_spec hi
    rw [heq] at ih
    rw [ih s.wired (s.plainResets hc), m.observe_remove h hc hn s]

end Interpretation

/-! ## A bit on every wire -/

/-- The gate `x` flips its qubits, a reset clears them, and a measurement writes whether one of
them is set to its classical bits. -/
def bitAct (i : Instruction) (s : Wire → Bool) : Wire → Bool
  | .qubit q =>
    if q ∈ i.qubits then
      match i.op with
      | .gate .x => !s (.qubit q)
      | .reset => false
      | _ => s (.qubit q)
    else s (.qubit q)
  | .clbit b =>
    if b ∈ i.clbits ∧ i.isMeasure then i.qubits.any fun q => s (.qubit q) else s (.clbit b)

theorem bitAct_of_not_mem {i : Instruction} {w : Wire} (hw : w ∉ i.wires) (s : Wire → Bool) :
    bitAct i s w = s w := by
  cases w with
  | qubit q =>
    rw [Circuit.qubit_mem_wires] at hw
    rw [bitAct, if_neg hw]
  | clbit b =>
    rw [Circuit.clbit_mem_wires] at hw
    rw [bitAct, if_neg fun h => hw h.1]

theorem bitAct_congr {i : Instruction} {s t : Wire → Bool} (h : ∀ w ∈ i.wires, s w = t w) {w : Wire}
    (hw : w ∈ i.wires) : bitAct i s w = bitAct i t w := by
  cases w with
  | qubit q => simp only [bitAct, h _ hw]
  | clbit b =>
    have hany : (i.qubits.any fun q => s (.qubit q)) = i.qubits.any fun q => t (.qubit q) := by
      rw [List.any_eq, List.any_eq]
      congr 1
      simp only [eq_iff_iff]
      refine exists_congr fun q => and_congr_right fun hq => ?_
      rw [h _ (Circuit.qubit_mem_wires.mpr hq)]
    simp only [bitAct, h _ hw, hany]

def bits : Interpretation (Wire → Bool) (Clbit → Bool) where
  act := bitAct
  observe s b := s (.clbit b)
  act_comm := by
    intro a b hab s
    funext w
    by_cases ha : w ∈ a.wires
    · rw [bitAct_of_not_mem (hab w ha)]
      exact bitAct_congr (fun v hv => bitAct_of_not_mem (hab v hv) s) ha
    · rw [bitAct_of_not_mem ha]
      by_cases hb : w ∈ b.wires
      · exact bitAct_congr (fun v hv => (bitAct_of_not_mem (fun hva => hab v hva hv) s).symm) hb
      · rw [bitAct_of_not_mem hb, bitAct_of_not_mem hb, bitAct_of_not_mem ha]
  act_reset := by
    intro q r hr hq s
    have hop : r.op = .reset := by simpa [Instruction.isReset] using hr
    funext w
    cases w with
    | qubit p =>
      by_cases hp : p ∈ r.qubits
      · simp [bitAct, hp, hop]
      · have hpq : p ≠ q := fun e => hp (e ▸ hq)
        simp [bitAct, hp, hpq, Instruction.reset]
    | clbit b => simp [bitAct, Instruction.isMeasure, hop, Instruction.reset]
  observe_reset := by
    intro q s
    funext b
    simp [bitAct, Instruction.reset]

def flippedOnce : Circuit :=
  (Circuit.ofSize 1 1).appendAll
    [.reset ⟨0⟩, .reset ⟨0⟩, .gateOn .x ⟨0⟩, .measure ⟨0⟩ ⟨0⟩, .reset ⟨0⟩]

/-! ## The passes -/

section
variable {κ : Type} [DecidableEq κ] {V : κ → Type}

def Circuit.afterPasses (c : Circuit) (runs : List (Pass V × Properties V)) : Circuit :=
  runs.foldl (fun c r => (r.1.run c r.2).circuit) c

theorem Circuit.Wired.drops_of_pass {c : Circuit} {ops : Wire → List NodeId} (h : c.Wired ops)
    {pass : Pass V} (hpass : pass = Pass.mergeResets ∨ pass = Pass.trimResets) (p : Properties V) :
    ∃ ds, Drops (fun c n => c.isIdle n) c ds (pass.run c p).circuit := by
  rcases hpass with rfl | rfl
  · obtain ⟨-, ds, -, -, hdrops⟩ := h.mergeResets_spec
    rw [(h.run_mergeResets p).2]
    exact ⟨ds, hdrops.imp isIdle_of_isSuperseded⟩
  · obtain ⟨-, ds, -, -, hdrops⟩ := h.trimResets_spec
    rw [(h.run_trimResets p).2]
    exact ⟨ds, hdrops.imp isIdle_of_isTrailing⟩

theorem Interpretation.observe_afterPasses {S : Type u} {O : Type v} (m : Interpretation S O) (x : S) :
    ∀ (runs : List (Pass V × Properties V)) {c : Circuit} {ops : Wire → List NodeId},
    (∀ r ∈ runs, r.1 = Pass.mergeResets ∨ r.1 = Pass.trimResets) → c.Wired ops → c.PlainResets →
    m.observe (m.run (c.afterPasses runs) x) = m.observe (m.run c x)
  | [], _, _, _, _, _ => rfl
  | r :: runs, c, ops, hruns, h, hc => by
    obtain ⟨ds, hdrops⟩ := h.drops_of_pass (hruns r (by simp)) r.2
    have s := hdrops.cuts Circuit.isSome_of_isIdle h
    rw [Circuit.afterPasses, List.foldl_cons, ← Circuit.afterPasses,
      observe_afterPasses m x runs (fun r' hr' => hruns r' (by simp [hr'])) s.wired (s.plainResets hc),
      m.observe_drops hdrops h hc]

/-- **The passes keep the measured outcome.** In whatever order the operations are read out
before and after, what is observed is the same from every state at the start. -/
theorem passes_keep_outcome {S : Type u} {O : Type v} (m : Interpretation S O) {c : Circuit}
    (hc : c.Reachable) (hplain : c.PlainResets) (runs : List (Pass V × Properties V))
    (hruns : ∀ r ∈ runs, r.1 = Pass.mergeResets ∨ r.1 = Pass.trimResets) (s : S) :
    m.observe (m.run (c.afterPasses runs) s) = m.observe (m.run c s) := by
  obtain ⟨ops, h⟩ := hc.wired
  exact m.observe_afterPasses s runs hruns h hplain

theorem flippedOnce_keeps_outcome :
    let runs : List (Pass (fun _ : Empty => Unit) × Properties fun _ : Empty => Unit) :=
      [(.trimResets, .empty), (.mergeResets, .empty)]
    flippedOnce.Reachable ∧ flippedOnce.PlainResets ∧
      (flippedOnce.afterPasses runs).opsOn (.qubit ⟨0⟩) =
        .ok [.reset ⟨0⟩, .gateOn .x ⟨0⟩, .measure ⟨0⟩ ⟨0⟩] ∧
      bits.observe (bits.run (flippedOnce.afterPasses runs) fun _ => false) ⟨0⟩ = true := by
  intro runs
  have hreach : flippedOnce.Reachable := (Circuit.reachable_ofSize 1 1).appendAll _
  have hplain : flippedOnce.PlainResets
    | 4, _, rfl, _, _ => rfl
    | 5, _, rfl, _, _ => rfl
    | 6, _, rfl, _, _ => rfl
    | 7, _, rfl, hr, _ => nomatch hr
    | 8, _, rfl, _, _ => rfl
  refine ⟨hreach, hplain, rfl, ?_⟩
  rw [passes_keep_outcome bits hreach hplain runs (by simp [runs])]
  rfl

end

end QuantumCircuit
