import QuantumCircuit.Proofs.Sweeps

/-!
# What the cleanup leaves

Merging and then trimming takes out the resets that are idle in the circuit at the start, and
no others; every wire keeps the rest in order. A reset is taken off all its wires, so the
passes leave a classical bit alone exactly if no reset that they take out acts on it.
-/

namespace QuantumCircuit

namespace Circuit

/-- Whether `n` resets one qubit and a reset or nothing at all follows there. -/
def isIdle (c : Circuit) (n : NodeId) : Bool := c.isSuperseded n || c.isTrailing n

variable {c c' : Circuit} {ops : Wire → List NodeId} {n : NodeId} {ds : List NodeId}

theorem isSome_instruction? {p : Qubit × NodeId} (h : c.follower? n = some p) :
    (c.instruction? n).isSome := by
  obtain ⟨q, hq, -⟩ := Option.bind_eq_some_iff.mp h
  obtain ⟨i, hi, -⟩ := loneReset?_eq_some.mp hq
  rw [hi]; rfl

theorem isIdle_iff : c.isIdle n ↔ ∃ q m, c.follower? n = some (q, m) ∧
    (c.isResetAt m ∨ c.output? (.qubit q) = some m) := by
  rw [isIdle, Bool.or_eq_true, isSuperseded_iff, isTrailing_iff]
  grind

theorem isSome_of_isIdle (c : Circuit) (n : NodeId) (h : c.isIdle n) : (c.instruction? n).isSome := by
  obtain ⟨q, m, hm, -⟩ := isIdle_iff.mp h
  exact isSome_instruction? hm

theorem isIdle_of_isSuperseded (c : Circuit) (n : NodeId) (h : c.isSuperseded n) : c.isIdle n := by
  rw [isIdle, h]; rfl

theorem isIdle_of_isTrailing (c : Circuit) (n : NodeId) (h : c.isTrailing n) : c.isIdle n := by
  rw [isIdle, h, Bool.or_true]

theorem Wired.mergeResets_cuts (h : c.Wired ops) :
    ∃ ds, (∀ n, n ∈ ds ↔ c.isSuperseded n) ∧ c.Cuts ops ds c.mergeResets.circuit :=
  CleanupPass.merge.sweep_cuts h

theorem Wired.trimResets_cuts (h : c.Wired ops) :
    ∃ ds, (∀ n, n ∈ ds ↔ c.isTrailing n) ∧ c.Cuts ops ds c.trimResets.circuit :=
  CleanupPass.trim.sweep_cuts h

theorem Cuts.exists_follower (s : c.Cuts ops ds c') (h : c.Wired ops) {q : Qubit} {m : NodeId}
    (hm : c'.follower? n = some (q, m)) : n ∉ ds ∧ ∃ k, c.follower? n = some (q, k) := by
  obtain ⟨i, hi⟩ := Option.isSome_iff_exists.mp (isSome_instruction? hm)
  have hn : n ∉ ds := s.not_mem_of_live (instruction?_eq_some.mp hi)
  have hq := (s.wired.follower?_eq_some.mp hm).1
  rw [s.loneReset? hn] at hq
  exact ⟨hn, h.exists_follower hq⟩

theorem Cuts.isTrailing_iff (s : c.Cuts ops ds c') (h : c.Wired ops)
    (hds : ∀ n, n ∈ ds ↔ c.isSuperseded n) : c'.isTrailing n ↔ n ∉ ds ∧ c.isTrailing n := by
  have hfollow : ∀ q m, n ∉ ds → c.follower? n = some (q, m) → c'.follower? n = some (q, m) := by
    intro q m hn hm
    refine s.follower? h hn ?_ hm
    -- a follower that is gone was a reset, so `n` would be gone as well
    intro hmem
    obtain ⟨r, k, hk, -⟩ := isSuperseded_iff.mp ((hds m).mp hmem)
    have hreset := isResetAt_of_loneReset? (h.follower?_eq_some.mp hk).1
    exact hn ((hds n).mpr (isSuperseded_iff.mpr ⟨q, m, hm, hreset⟩))
  rw [Circuit.isTrailing_iff, Circuit.isTrailing_iff]
  constructor
  · rintro ⟨q, m, hm, ho⟩
    obtain ⟨hn, k, hk⟩ := s.exists_follower h hm
    have hk' := hfollow q k hn hk
    obtain rfl : k = m := by simpa [hm] using hk'.symm
    exact ⟨hn, q, k, hk, (s.output? _).symm.trans ho⟩
  · rintro ⟨hn, q, m, hm, ho⟩
    exact ⟨q, m, hfollow q m hn hm, (s.output? _).trans ho⟩

theorem Wired.cleanup_cuts (h : c.Wired ops) :
    ∃ ds, (∀ n, n ∈ ds ↔ c.isIdle n) ∧ c.Cuts ops ds c.mergeResets.circuit.trimResets.circuit := by
  obtain ⟨ds, hds, s⟩ := h.mergeResets_cuts
  obtain ⟨es, hes, s'⟩ := s.wired.trimResets_cuts
  refine ⟨ds ++ es, ?_, s.trans s'⟩
  intro n
  rw [List.mem_append, hes, s.isTrailing_iff h hds, hds, isIdle, Bool.or_eq_true]
  grind

/-- A lone reset is left only if what follows it may follow. If a reset may not, then what
follows afterwards is what followed before. -/
theorem Cuts.follower?_kept (s : c.Cuts ops ds c') (h : c.Wired ops) {P : Qubit → NodeId → Prop}
    (hds : ∀ n, n ∈ ds ↔ ∃ q m, c.follower? n = some (q, m) ∧ P q m)
    (hreset : ∀ q m, c.isResetAt m → P q m) {q : Qubit} {m : NodeId} (hm : c'.follower? n = some (q, m)) :
    m ∉ ds ∧ ¬ P q m := by
  obtain ⟨hn, k, hk⟩ := s.exists_follower h hm
  have hkept : ¬ P q k := fun hbad => hn ((hds n).mpr ⟨q, k, hk, hbad⟩)
  -- what followed `n` at first is no reset, so it is still there and still follows
  have hkds : k ∉ ds := by
    intro hmem
    obtain ⟨r, j, hj, -⟩ := (hds k).mp hmem
    exact hkept (hreset q k (isResetAt_of_loneReset? (h.follower?_eq_some.mp hj).1))
  have hk' := s.follower? h hn hkds hk
  obtain rfl : k = m := by simpa [hm] using hk'.symm
  exact ⟨hkds, hkept⟩

theorem Cuts.not_isSuperseded (s : c.Cuts ops ds c') (h : c.Wired ops)
    (hds : ∀ n, n ∈ ds ↔ c.isSuperseded n) (n : NodeId) : c'.isSuperseded n = false := by
  rw [← Bool.not_eq_true]
  intro hsup
  obtain ⟨q, m, hm, hreset⟩ := isSuperseded_iff.mp hsup
  obtain ⟨hmds, hkept⟩ := s.follower?_kept h (fun n => (hds n).trans isSuperseded_iff) (fun _ _ hr => hr) hm
  rw [s.isResetAt hmds] at hreset
  exact hkept hreset

theorem Cuts.not_isIdle (s : c.Cuts ops ds c') (h : c.Wired ops) (hds : ∀ n, n ∈ ds ↔ c.isIdle n)
    (n : NodeId) : c'.isIdle n = false := by
  rw [← Bool.not_eq_true]
  intro hidle
  obtain ⟨q, m, hm, hend⟩ := isIdle_iff.mp hidle
  obtain ⟨hmds, hkept⟩ := s.follower?_kept h (fun n => (hds n).trans isIdle_iff) (fun _ _ => .inl) hm
  rw [s.isResetAt hmds, s.output?] at hend
  exact hkept hend

theorem Wired.exists_of_getLast? (h : c.Wired ops) {w : Wire} {i : Instruction}
    (hi : ((ops w).filterMap c.instruction?).getLast? = some i) :
    ∃ l n, ops w = l ++ [n] ∧ c.instruction? n = some i := by
  rcases List.eq_nil_or_concat (ops w) with hnil | ⟨l, n, hl⟩
  · simp [hnil] at hi
  · rw [List.concat_eq_append] at hl
    obtain ⟨j, hj, -⟩ := (h.mem_ops w n).mp (by rw [hl]; simp)
    refine ⟨l, n, hl, ?_⟩
    simpa [hl, hj] using hi

theorem Wired.last_not_isReset (h : c.Wired ops) (hidle : ∀ n, c.isIdle n = false)
    (hlone : ∀ n i, c.instruction? n = some i → i.isReset → i.qubits.length = 1) {q : Qubit}
    (hq : c.hasWire (.qubit q)) : ∃ is, c.opsOn (.qubit q) = .ok is ∧
      ∀ i, is.getLast? = some i → i.isReset = false := by
  refine ⟨_, h.opsOn_eq hq, ?_⟩
  intro i hi
  rw [← Bool.not_eq_true]
  intro hr
  obtain ⟨l, n, hl, hn⟩ := h.exists_of_getLast? hi
  obtain ⟨a, o, -, ho, ht⟩ := h.ends hq
  obtain ⟨r, hqs⟩ := List.length_eq_one_iff.mp (hlone n i hn hr)
  have hreset : c.loneReset? n = some r := loneReset?_eq_some.mpr ⟨i, hn, hr, hqs⟩
  obtain rfl : q = r := (h.mem_ops_of_loneReset? hreset q).mp (by rw [hl]; simp)
  have hf : c.follower? n = some (q, o) :=
    h.follower?_eq_some.mpr ⟨hreset, a :: l, [], by rw [ht, hl]; simp⟩
  have : c.isIdle n := isIdle_iff.mpr ⟨q, o, hf, .inr ho⟩
  rw [hidle n] at this
  cases this

end Circuit

/-! ## The passes and the pipeline -/

section
variable {κ : Type} {V : κ → Type} [DecidableEq κ]

theorem Circuit.Wired.run_mergeResets {c : Circuit} {ops : Wire → List NodeId} (h : c.Wired ops)
    (p : Properties V) : (Pass.mergeResets.run c p).result = .ok () ∧
      (Pass.mergeResets.run c p).circuit = c.mergeResets.circuit := by
  have hrun := CleanupPass.merge.accounts_run h p
  exact ⟨hrun.ok, hrun.circuit⟩

theorem Circuit.Wired.run_trimResets {c : Circuit} {ops : Wire → List NodeId} (h : c.Wired ops)
    (p : Properties V) : (Pass.trimResets.run c p).result = .ok () ∧
      (Pass.trimResets.run c p).circuit = c.trimResets.circuit := by
  have hrun := CleanupPass.trim.accounts_run h p
  exact ⟨hrun.ok, hrun.circuit⟩

theorem Circuit.Wired.accounts_plan {c : Circuit} {ops : Wire → List NodeId} (h : c.Wired ops)
    (plan : CleanupPlan V) (hm : plan.options.mergeResets) (ht : plan.options.trimResets)
    (p : Properties V) : Accounts c p [.merge, .trim] (plan.build.1.run c p) := by
  have hbuild : plan.build.1 =
      ⟨[CleanupPass.merge, CleanupPass.trim].map CleanupPass.toPass, plan.options.check⟩ := by
    simp [CleanupPlan.build, CleanupOptions.pipeline, hm, ht, CleanupPass.toPass]
  rw [hbuild]
  exact h.accounts_pipeline _ _ p

theorem Circuit.Wired.run_plan {c : Circuit} {ops : Wire → List NodeId} (h : c.Wired ops)
    (plan : CleanupPlan V) (hm : plan.options.mergeResets) (ht : plan.options.trimResets)
    (p : Properties V) : (plan.build.1.run c p).result = .ok () ∧
      (plan.build.1.run c p).circuit = c.mergeResets.circuit.trimResets.circuit := by
  have hrun := h.accounts_plan plan hm ht p
  exact ⟨hrun.ok, hrun.circuit⟩

/-- **The cleanup deletes the resets that were idle at the start.** All other nodes stay as
they are, and on every wire they keep their order. -/
theorem cleanup_deletes_idle_resets {c : Circuit} (hc : c.Reachable) (plan : CleanupPlan V)
    (hm : plan.options.mergeResets) (ht : plan.options.trimResets) (p : Properties V) :
    let o := plan.build.1.run c p
    o.result = .ok () ∧
      (∀ n, o.circuit.node? n = if c.isIdle n then none else c.node? n) ∧
      (∀ w, o.circuit.input? w = c.input? w ∧ o.circuit.output? w = c.output? w) ∧
      (∀ w, o.circuit.nodesOn w = (c.nodesOn w).map (List.filter fun n => !c.isIdle n)) ∧
      (∀ n, o.circuit.isIdle n = false) ∧
      ((∀ n i, c.instruction? n = some i → i.isReset → i.qubits.length = 1) →
        ∀ q, c.hasWire (.qubit q) → ∃ is, o.circuit.opsOn (.qubit q) = .ok is ∧
          ∀ i, is.getLast? = some i → i.isReset = false) := by
  obtain ⟨ops, h⟩ := hc.wired
  obtain ⟨ds, hds, s⟩ := h.cleanup_cuts
  obtain ⟨hok, hcirc⟩ := h.run_plan plan hm ht p
  have hkeep : (fun n => decide (n ∉ ds)) = fun n => !c.isIdle n := by
    funext n
    by_cases hn : c.isIdle n <;> simp [hds, hn]
  dsimp only
  rw [hcirc]
  refine ⟨hok, ?_, fun w => ⟨s.input? w, s.output? w⟩, ?_, s.not_isIdle h hds, ?_⟩
  · intro n
    rw [s.node?]
    simp only [hds]
  · intro w
    rw [s.nodesOn h, hkeep]
  · intro hlone q hq
    refine s.wired.last_not_isReset (s.not_isIdle h hds) ?_ (by rwa [Circuit.hasWire, s.input?])
    intro n j hj
    rw [s.instruction?] at hj
    split at hj
    · cases hj
    · exact hlone n j hj

def mixedResets : Circuit :=
  (Circuit.ofSize 2 1).appendAll
    [.gateOn .h ⟨0⟩, .reset ⟨0⟩, ⟨.reset, [⟨0⟩], [⟨0⟩]⟩, ⟨.reset, [⟨0⟩, ⟨1⟩], []⟩, .reset ⟨1⟩, .reset ⟨1⟩]

theorem cleanup_of_mixedResets :
    let o := ({} : CleanupPlan fun _ : Empty => Unit).build.1.run mixedResets .empty
    mixedResets.Reachable ∧ o.result = .ok () ∧
      mixedResets.nodesOn (.qubit ⟨0⟩) = .ok [6, 7, 8, 9] ∧ o.circuit.nodesOn (.qubit ⟨0⟩) = .ok [6, 9] ∧
      mixedResets.nodesOn (.qubit ⟨1⟩) = .ok [9, 10, 11] ∧ o.circuit.nodesOn (.qubit ⟨1⟩) = .ok [9] := by
  intro o
  have hreach : mixedResets.Reachable := (Circuit.reachable_ofSize 2 1).appendAll _
  obtain ⟨hok, -, -, hon, -, -⟩ := cleanup_deletes_idle_resets hreach
    ({} : CleanupPlan fun _ : Empty => Unit) rfl rfl .empty
  refine ⟨hreach, hok, rfl, ?_, rfl, ?_⟩
  · rw [hon]; rfl
  · rw [hon]; rfl

/-! ## Classical bits -/

theorem Circuit.length_filterMap_instruction? {c : Circuit} : ∀ {l : List NodeId},
    (∀ n ∈ l, (c.instruction? n).isSome) → (l.filterMap c.instruction?).length = l.length
  | [], _ => rfl
  | n :: l, h => by
    obtain ⟨i, hi⟩ := Option.isSome_iff_exists.mp (h n (by simp))
    rw [List.filterMap_cons_some hi, List.length_cons, List.length_cons,
      length_filterMap_instruction? fun m hm => h m (by simp [hm])]

theorem Circuit.Cuts.opsOn_eq_iff {c c' : Circuit} {ops : Wire → List NodeId} {ds : List NodeId}
    (s : c.Cuts ops ds c') (h : c.Wired ops) (w : Wire) :
    c'.opsOn w = c.opsOn w ↔ ∀ n ∈ ds, n ∉ ops w := by
  by_cases hw : c.hasWire w
  · have hw' : c'.hasWire w := by rwa [s.hasWire]
    rw [h.opsOn_eq hw, s.wired.opsOn_eq hw']
    constructor
    · intro heq n hn hmem
      have hlen := congrArg List.length (Except.ok.inj heq)
      rw [length_filterMap_instruction? fun _ => s.wired.isSome_of_mem_ops,
        length_filterMap_instruction? fun _ => h.isSome_of_mem_ops, without, List.length_filter_eq_length_iff] at hlen
      simpa [hn] using hlen n hmem
    · intro hnot
      have hself : without ops ds w = ops w := by
        rw [without, List.filter_eq_self]
        intro n hn
        simpa using fun hmem => hnot n hmem hn
      rw [hself]
      congr 1
      apply List.filterMap_congr
      intro n hn
      rw [s.instruction?, if_neg fun hmem => hnot n hmem hn]
  · have hw' : ¬ c'.hasWire w := by rwa [s.hasWire]
    refine ⟨fun _ n _ hn => hw (h.hasWire_of_mem_ops hn), fun _ => ?_⟩
    rw [opsOn_eq_error hw, opsOn_eq_error hw']

theorem Circuit.Cuts.opsOn_clbit_iff {c c' : Circuit} {ops : Wire → List NodeId} {ds : List NodeId}
    (s : c.Cuts ops ds c') (h : c.Wired ops) (b : Clbit) {P : NodeId → Bool} (hds : ∀ n, n ∈ ds ↔ P n) :
    c'.opsOn (.clbit b) = c.opsOn (.clbit b) ↔
      ∀ n i, c.instruction? n = some i → b ∈ i.clbits → P n = false := by
  rw [s.opsOn_eq_iff h]
  simp only [hds, h.mem_ops, Circuit.clbit_mem_wires]
  grind

/-- **The passes leave a classical bit alone exactly if no reset that they take out acts on it.** -/
theorem passes_keep_clbit_iff {c : Circuit} (hc : c.Reachable) (p : Properties V) (b : Clbit) :
    ((Pass.mergeResets.run c p).circuit.opsOn (.clbit b) = c.opsOn (.clbit b) ↔
        ∀ n i, c.instruction? n = some i → b ∈ i.clbits → c.isSuperseded n = false) ∧
      ((Pass.trimResets.run c p).circuit.opsOn (.clbit b) = c.opsOn (.clbit b) ↔
        ∀ n i, c.instruction? n = some i → b ∈ i.clbits → c.isTrailing n = false) := by
  obtain ⟨ops, h⟩ := hc.wired
  obtain ⟨ds, hds, s⟩ := h.mergeResets_cuts
  obtain ⟨es, hes, s'⟩ := h.trimResets_cuts
  rw [(h.run_mergeResets p).2, (h.run_trimResets p).2]
  exact ⟨s.opsOn_clbit_iff h b hds, s'.opsOn_clbit_iff h b hes⟩

def measuredThenReset : Circuit := (Circuit.ofSize 1 1).appendAll [.measure ⟨0⟩ ⟨0⟩, .reset ⟨0⟩]

theorem passes_keep_measured_clbit :
    measuredThenReset.Reachable ∧
      (Pass.mergeResets.run measuredThenReset (.empty : Properties fun _ : Empty => Unit)).circuit.opsOn
        (.clbit ⟨0⟩) = .ok [.measure ⟨0⟩ ⟨0⟩] ∧
      (Pass.trimResets.run measuredThenReset (.empty : Properties fun _ : Empty => Unit)).circuit.opsOn
        (.clbit ⟨0⟩) = .ok [.measure ⟨0⟩ ⟨0⟩] := by
  have hreach : measuredThenReset.Reachable := (Circuit.reachable_ofSize 1 1).appendAll _
  obtain ⟨hmerge, htrim⟩ := passes_keep_clbit_iff hreach (.empty : Properties fun _ : Empty => Unit) ⟨0⟩
  have honly : ∀ n i, measuredThenReset.instruction? n = some i → ⟨0⟩ ∈ i.clbits → n = 4
    | 4, _, _, _ => rfl
    | 5, _, rfl, hb => nomatch hb
  refine ⟨hreach, ?_, ?_⟩
  · refine (hmerge.mpr fun n i hi hb => ?_).trans rfl
    rw [honly n i hi hb]; rfl
  · refine (htrim.mpr fun n i hi hb => ?_).trans rfl
    rw [honly n i hi hb]; rfl

theorem trimResets_alters_clbit :
    let c := (Circuit.ofSize 1 1).appendAll [⟨.reset, [⟨0⟩], [⟨0⟩]⟩]
    c.Reachable ∧ c.opsOn (.clbit ⟨0⟩) = .ok [⟨.reset, [⟨0⟩], [⟨0⟩]⟩] ∧
      (Pass.trimResets.run c (.empty : Properties fun _ : Empty => Unit)).circuit.opsOn (.clbit ⟨0⟩) = .ok [] :=
  ⟨(Circuit.reachable_ofSize 1 1).appendAll _, rfl, rfl⟩

end

end QuantumCircuit
