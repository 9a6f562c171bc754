import QuantumCircuit.Proofs.Cleanup

/-!
# Settled circuits

A circuit is settled for a pass if there is nothing that the pass would take out. A run of the
pass then leaves the circuit as it is, down to the order of its edges and its free numbers.
Merging settles a circuit for merging, and the cleanup settles it for both passes; trimming
alone does not settle it for trimming.
-/

namespace QuantumCircuit

def CleanupPass.Settled (k : CleanupPass) (c : Circuit) : Prop := ∀ n, k.takes c n = false

theorem CleanupPass.eq_of_counters {s t : CleanupStats}
    (h : ∀ k : CleanupPass, k.counter s = k.counter t) : s = t := by
  have hmerge := h .merge
  have htrim := h .trim
  cases s
  cases t
  simp_all [counter]

variable {c : Circuit} {ops : Wire → List NodeId}

theorem Circuit.Wired.circuit_of_settled (h : c.Wired ops) {k : CleanupPass} (hk : k.Settled c) :
    (k.sweep c).circuit = c := by
  obtain ⟨-, ds, hds, -, hdrops⟩ := k.sweep_spec h
  have hnil : ds = [] := by
    rw [List.eq_nil_iff_forall_not_mem]
    intro n hn
    rw [hds, hk n] at hn
    cases hn
  subst hnil
  generalize (k.sweep c).circuit = c' at hdrops ⊢
  cases hdrops
  rfl

theorem Circuit.Wired.sweepAll_of_settled (h : c.Wired ops) : ∀ {ks : List CleanupPass},
    (∀ k ∈ ks, k.Settled c) → c.sweepAll ks = c ∧ ∀ j : CleanupPass, j.share c ks = 0
  | [], _ => ⟨rfl, fun _ => rfl⟩
  | k :: ks, hks => by
    have hk := h.circuit_of_settled (hks k (by simp))
    have hrest : ∀ j ∈ ks, j.Settled c := fun j hj => hks j (List.mem_cons_of_mem _ hj)
    obtain ⟨hall, hshare⟩ := h.sweepAll_of_settled hrest
    refine ⟨?_, ?_⟩
    · rw [Circuit.sweepAll, List.foldl_cons, hk]
      exact hall
    · intro j
      rw [CleanupPass.share, hk, hshare, Nat.sub_self, ite_self]

theorem Circuit.Wired.settled_merge (h : c.Wired ops) :
    CleanupPass.merge.Settled c.mergeResets.circuit := by
  obtain ⟨ds, hds, s⟩ := h.mergeResets_cuts
  exact s.not_isSuperseded h hds

theorem Circuit.Wired.cleanup_not_isIdle (h : c.Wired ops) (n : NodeId) :
    c.mergeResets.circuit.trimResets.circuit.isIdle n = false := by
  obtain ⟨ds, hds, s⟩ := h.cleanup_cuts
  exact s.not_isIdle h hds n

theorem CleanupPass.settled_of_not_isIdle (k : CleanupPass) (hidle : ∀ n, c.isIdle n = false) :
    k.Settled c := by
  intro n
  have hn := hidle n
  rw [Circuit.isIdle, Bool.or_eq_false_iff] at hn
  cases k with
  | merge => exact hn.1
  | trim => exact hn.2

section
variable {κ : Type} [DecidableEq κ] {V : κ → Type}

/-- The run succeeds and leaves the circuit, the statistics and all other properties as they
were; it only writes down statistics that were missing. -/
structure Outcome.Leaves (o : Outcome V) (c : Circuit) (p : Properties V) : Prop where
  ok : o.result = .ok ()
  circuit : o.circuit = c
  stats : o.properties.get? .cleanup = some p.stats
  custom : ∀ x, o.properties.get? (.custom x) = p.get? (.custom x)

theorem Accounts.leaves {p : Properties V} {ks : List CleanupPass} {o : Outcome V}
    (a : Accounts c p ks o) (h : c.Wired ops) (hne : ks ≠ []) (hks : ∀ k ∈ ks, k.Settled c) : o.Leaves c p := by
  obtain ⟨hall, hshare⟩ := h.sweepAll_of_settled hks
  refine ⟨a.ok, a.circuit.trans hall, ?_, a.custom⟩
  obtain ⟨s, hs⟩ := Option.isSome_iff_exists.mp (a.recorded (.inl hne))
  have hstats : o.properties.stats = s := by rw [Properties.stats, hs, Option.getD_some]
  rw [hs, Option.some_inj]
  apply CleanupPass.eq_of_counters
  intro k
  have hk := a.counted k
  rw [hshare, Advances.zero_iff, hstats] at hk
  exact hk

/-- **The cleanup is idempotent.** Once resets have been merged, merging them again changes
nothing, and after a cleanup neither another one nor any of its passes does: no reset is left
that they would take out. -/
theorem cleanup_is_idempotent {c : Circuit} (hc : c.Reachable) (plan : CleanupPlan V)
    (hm : plan.options.mergeResets) (ht : plan.options.trimResets) (p p' : Properties V) :
    let merged := (Pass.mergeResets.run c p).circuit
    let cleaned := (plan.build.1.run c p).circuit
    (Pass.mergeResets.run c p).result = .ok () ∧ (∀ n, merged.isSuperseded n = false) ∧
      (Pass.mergeResets.run merged p').Leaves merged p' ∧
      (plan.build.1.run c p).result = .ok () ∧ (∀ n, cleaned.isIdle n = false) ∧
      (plan.build.1.run cleaned p').Leaves cleaned p' ∧
      (Pass.mergeResets.run cleaned p').Leaves cleaned p' ∧
      (Pass.trimResets.run cleaned p').Leaves cleaned p' := by
  intro merged cleaned
  obtain ⟨ops, h⟩ := hc.wired
  obtain ⟨hokₘ, hmerged⟩ : _ ∧ merged = c.mergeResets.circuit := h.run_mergeResets p
  obtain ⟨hokₜ, hcleaned⟩ : _ ∧ cleaned = c.mergeResets.circuit.trimResets.circuit :=
    h.run_plan plan hm ht p
  obtain ⟨opsₘ, hwₘ⟩ : ∃ ops', merged.Wired ops' := by
    rw [hmerged]
    exact CleanupPass.merge.wired_sweep h
  obtain ⟨opsₜ, hwₜ⟩ : ∃ ops', cleaned.Wired ops' := by
    rw [hcleaned]
    exact h.sweepAll [.merge, .trim]
  have hsettledₘ : CleanupPass.merge.Settled merged := by rw [hmerged]; exact h.settled_merge
  have hidle : ∀ n, cleaned.isIdle n = false := by rw [hcleaned]; exact h.cleanup_not_isIdle
  have hsettledₜ : ∀ k : CleanupPass, k.Settled cleaned := fun k => k.settled_of_not_isIdle hidle
  refine ⟨hokₘ, hsettledₘ, ?_, hokₜ, hidle, ?_, ?_, ?_⟩
  · exact (CleanupPass.merge.accounts_run hwₘ p').leaves hwₘ (by simp) (by simpa using hsettledₘ)
  · exact (hwₜ.accounts_plan plan hm ht p').leaves hwₜ (by simp) fun k _ => hsettledₜ k
  · exact (CleanupPass.merge.accounts_run hwₜ p').leaves hwₜ (by simp) fun k _ => hsettledₜ k
  · exact (CleanupPass.trim.accounts_run hwₜ p').leaves hwₜ (by simp) fun k _ => hsettledₜ k

theorem cleanup_settles_mixedResets :
    let plan : CleanupPlan fun _ : Empty => Unit := {}
    let o := plan.build.1.run mixedResets .empty
    let o' := plan.build.1.run o.circuit o.properties
    mixedResets.Reachable ∧ o.circuit ≠ mixedResets ∧ o'.result = .ok () ∧ o'.circuit = o.circuit ∧
      o.properties.get? .cleanup = some ⟨1, 3⟩ ∧ o'.properties.get? .cleanup = some ⟨1, 3⟩ := by
  intro plan o o'
  have hreach : mixedResets.Reachable := (Circuit.reachable_ofSize 2 1).appendAll _
  obtain ⟨-, -, -, -, -, hagain, -, -⟩ :=
    cleanup_is_idempotent hreach plan rfl rfl .empty o.properties
  have hchanged : o.circuit ≠ mixedResets := by decide +kernel
  have hstats : o.properties.get? .cleanup = some ⟨1, 3⟩ := by decide +kernel
  refine ⟨hreach, hchanged, hagain.ok, hagain.circuit, hstats, hagain.stats.trans ?_⟩
  rw [Properties.stats, hstats]
  rfl

-- a second trimming finds the reset that the first one left at the end
example :
    let c := (Circuit.ofSize 1 0).appendAll [.reset ⟨0⟩, .reset ⟨0⟩]
    c.trimResets.circuit.trimResets.circuit ≠ c.trimResets.circuit := by
  decide +kernel

end

end QuantumCircuit
