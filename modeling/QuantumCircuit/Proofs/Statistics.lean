import QuantumCircuit.Proofs.Sweeps

/-!
# The statistics of the cleanup

Over any number of runs the counters, the number of operations, the number of resets and the
log change together: each operation that a pass takes out is a reset, is counted once by the
counter of that pass and is told once in the log.
-/

namespace QuantumCircuit

theorem Circuit.Wired.measure_sweepAll {f : Circuit → Nat} {b : Nat}
    (hf : ∀ (k : CleanupPass) (c : Circuit) (ops : Wire → List NodeId), c.Wired ops →
      f c = f (k.sweep c).circuit + b * (k.sweep c).removed) :
    ∀ (ks : List CleanupPass) {c : Circuit} {ops : Wire → List NodeId}, c.Wired ops →
      f c = f (c.sweepAll ks) + b * (CleanupPass.merge.share c ks + CleanupPass.trim.share c ks)
  | [], c, _, _ => rfl
  | k :: ks, c, ops, h => by
    obtain ⟨ops', h'⟩ := k.wired_sweep h
    have hhead : c.opCount - (k.sweep c).circuit.opCount = (k.sweep c).removed := by
      have := k.opCount_sweep h
      omega
    have hshare : CleanupPass.merge.share c (k :: ks) + CleanupPass.trim.share c (k :: ks) =
        (k.sweep c).removed + (CleanupPass.merge.share (k.sweep c).circuit ks +
          CleanupPass.trim.share (k.sweep c).circuit ks) := by
      rw [← hhead]
      cases k <;> simp [CleanupPass.share] <;> omega
    have ih := measure_sweepAll hf ks h'
    rw [hshare, Nat.mul_add, hf k c ops h, ih]
    simp only [Circuit.sweepAll, List.foldl_cons]
    omega

theorem Circuit.Wired.opCount_sweepAll {c : Circuit} {ops : Wire → List NodeId} (h : c.Wired ops)
    (ks : List CleanupPass) : c.opCount =
      (c.sweepAll ks).opCount + (CleanupPass.merge.share c ks + CleanupPass.trim.share c ks) := by
  have := h.measure_sweepAll (f := Circuit.opCount) (b := 1) (fun k c ops h => by
    rw [k.opCount_sweep h, Nat.one_mul]) ks
  rwa [Nat.one_mul] at this

theorem Circuit.Wired.countNamed_reset_sweepAll {c : Circuit} {ops : Wire → List NodeId}
    (h : c.Wired ops) (ks : List CleanupPass) : c.countNamed "reset" =
      (c.sweepAll ks).countNamed "reset" +
        (CleanupPass.merge.share c ks + CleanupPass.trim.share c ks) := by
  have := h.measure_sweepAll (f := (Circuit.countNamed · "reset")) (b := 1) (fun k c ops h => by
    rw [k.countNamed_reset_sweep h, Nat.one_mul]) ks
  rwa [Nat.one_mul] at this

theorem Circuit.Wired.countNamed_sweepAll {c : Circuit} {ops : Wire → List NodeId} (h : c.Wired ops)
    (ks : List CleanupPass) {name : String} (hname : name ≠ "reset") :
    (c.sweepAll ks).countNamed name = c.countNamed name := by
  have := h.measure_sweepAll (f := (Circuit.countNamed · name)) (b := 0) (fun k c ops h => by
    rw [k.countNamed_sweep h hname, Nat.zero_mul, Nat.add_zero]) ks
  rw [this, Nat.zero_mul, Nat.add_zero]

/-! ## Runs -/

inductive CleanupRun where
  | alone (k : CleanupPass)
  | pipeline (ks : List CleanupPass) (checks : Bool)

namespace CleanupRun

def passes : CleanupRun → List CleanupPass
  | alone k => [k]
  | pipeline ks _ => ks

variable {κ : Type} [DecidableEq κ] {V : κ → Type}

def run (c : Circuit) (p : Properties V) : CleanupRun → Outcome V
  | alone k => k.toPass.run c p
  | pipeline ks checks => Pipeline.run ⟨ks.map CleanupPass.toPass, checks⟩ c p

/-- One run after another, up to the first that fails, on the circuit and the properties that
are left each time. -/
def runAll (c : Circuit) (p : Properties V) : List CleanupRun → Outcome V
  | [] => { result := .ok (), circuit := c, properties := p }
  | r :: rs =>
    let o := r.run c p
    match o.result with
    | .error _ => o
    | .ok () => (runAll o.circuit o.properties rs).after o.log

theorem accounts_run {c : Circuit} {ops : Wire → List NodeId} (h : c.Wired ops) (p : Properties V)
    (r : CleanupRun) : Accounts c p r.passes (r.run c p) := by
  cases r with
  | alone k => exact k.accounts_run h p
  | pipeline ks checks => exact h.accounts_pipeline ks checks p

theorem accounts_runAll : ∀ (rs : List CleanupRun) {c : Circuit} {ops : Wire → List NodeId},
    c.Wired ops → ∀ p : Properties V, Accounts c p (rs.flatMap passes) (runAll c p rs)
  | [], c, _, _, p => .nil c p fun _ => rfl
  | r :: rs, c, ops, h, p => by
    have hrun := accounts_run h p r
    obtain ⟨ops', h'⟩ : ∃ ops', (r.run c p).circuit.Wired ops' := by
      rw [hrun.circuit]
      exact Circuit.Wired.sweepAll r.passes h
    rw [runAll, List.flatMap_cons]
    simp only [hrun.ok]
    exact hrun.trans (accounts_runAll rs h' _) fun _ => rfl

end CleanupRun

theorem CleanupStats.advances_total {s t : CleanupStats} {m n : Nat}
    (hm : Advances m s.duplicateRemoved t.duplicateRemoved) (hn : Advances n s.finalRemoved t.finalRemoved) :
    Advances (m + n) s.total t.total := by
  apply Advances.of_eq
  rw [total, total, hm.wraps, hn.wraps, UInt64.ofNat_add]
  ac_rfl

/-- **The statistics account for every deletion.** Over any number of runs the counters grow by
as much as the number of operations and the number of resets fall and as the log tells, each
counter by what its own pass took out, and nothing else changes. -/
theorem statistics_account_for_deletions {κ : Type} [DecidableEq κ] {V : κ → Type} {c : Circuit}
    (hc : c.Reachable) (p : Properties V) (runs : List CleanupRun) :
    let o := CleanupRun.runAll c p runs
    let told := o.log.countP CleanupPass.merge.reports + o.log.countP CleanupPass.trim.reports
    o.result = .ok () ∧
      Advances told p.stats.total o.properties.stats.total ∧
      c.opCount = o.circuit.opCount + told ∧
      c.countNamed "reset" = o.circuit.countNamed "reset" + told ∧
      (∀ k : CleanupPass,
        Advances (k.share c (runs.flatMap CleanupRun.passes)) (k.counter p.stats)
            (k.counter o.properties.stats) ∧
          o.log.countP k.reports = k.share c (runs.flatMap CleanupRun.passes)) ∧
      (∀ name, name ≠ "reset" → o.circuit.countNamed name = c.countNamed name) ∧
      ∀ x, o.properties.get? (.custom x) = p.get? (.custom x) := by
  intro o told
  obtain ⟨ops, h⟩ := hc.wired
  have hrun : Accounts c p (runs.flatMap CleanupRun.passes) o := CleanupRun.accounts_runAll runs h p
  have htold : told = CleanupPass.merge.share c (runs.flatMap CleanupRun.passes) +
      CleanupPass.trim.share c (runs.flatMap CleanupRun.passes) := by
    simp only [told, hrun.told]
  rw [htold, hrun.circuit]
  refine ⟨hrun.ok, ?_, h.opCount_sweepAll _, h.countNamed_reset_sweepAll _,
    fun k => ⟨hrun.counted k, hrun.told k⟩, fun name => h.countNamed_sweepAll _, hrun.custom⟩
  exact CleanupStats.advances_total (hrun.counted .merge) (hrun.counted .trim)

def paddedResets : Circuit :=
  (Circuit.ofSize 2 1).appendAll [.gateOn .h ⟨0⟩, .reset ⟨0⟩, .reset ⟨0⟩, .reset ⟨0⟩, .measure ⟨1⟩ ⟨0⟩,
    .reset ⟨1⟩, .reset ⟨1⟩]

theorem statistics_of_paddedResets :
    let p : Properties fun _ : Unit => Nat :=
      (TypedStore.empty.insert .cleanup ⟨5, 7⟩).insert (.custom ()) 3
    let o := CleanupRun.runAll paddedResets p
      [.alone .trim, .pipeline [.merge, .trim] true, .alone .merge]
    paddedResets.Reachable ∧ o.result = .ok () ∧ o.properties.stats.total.toNat = 17 ∧
      paddedResets.opCount = 7 ∧ o.circuit.opCount = 2 ∧ o.circuit.countNamed "reset" = 0 ∧
      (CleanupPass.merge.counter o.properties.stats).toNat = 8 ∧ o.properties.get? (.custom ()) = some 3 := by
  intro p o
  have hreach : paddedResets.Reachable := (Circuit.reachable_ofSize 2 1).appendAll _
  obtain ⟨hok, htotal, hops, hresets, hshares, -, hcustom⟩ := statistics_account_for_deletions hreach p
    [.alone .trim, .pipeline [.merge, .trim] true, .alone .merge]
  have hmerge : o.log.countP CleanupPass.merge.reports = 1 := by decide +kernel
  have htrim : o.log.countP CleanupPass.trim.reports = 4 := by decide +kernel
  have hcount : paddedResets.opCount = 7 ∧ paddedResets.countNamed "reset" = 5 := by decide +kernel
  have hstats : p.stats = ⟨5, 7⟩ := rfl
  have hshare := hshares .merge
  rw [← hshare.2, hmerge, hstats] at hshare
  rw [hmerge, htrim] at htotal hops hresets
  rw [hstats] at htotal
  have hops' : o.circuit.opCount + 5 = 7 := hops.symm.trans hcount.1
  have hresets' : o.circuit.countNamed "reset" + 5 = 5 := hresets.symm.trans hcount.2
  exact ⟨hreach, hok, htotal.exact (by decide), hcount.1, by omega, by omega, hshare.1.exact (by decide),
    hcustom ()⟩

end QuantumCircuit
