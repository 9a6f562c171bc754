import QuantumCircuit.Pass.Script
import QuantumCircuit.Proofs.Histories

/-!
# Checked pipelines

A pass that only makes edits leaves a reachable circuit reachable, wherever it fails. So the
check after a pass never finds a defect, and a pipeline that checks does in every respect what
it does without checks.
-/

namespace QuantumCircuit

open Relation

section
variable {κ : Type} {V : κ → Type}

theorem Pass.EditsOnly.reachable {pass : Pass V} (h : pass.EditsOnly) {c : Circuit} (hc : c.Reachable)
    (p : Properties V) : (pass.run c p).circuit.Reachable :=
  ReflTransGen.trans hc (h c p)

theorem Pipeline.runPasses_checks : ∀ (passes : List (Pass V)), (∀ pass ∈ passes, pass.EditsOnly) →
    ∀ {c : Circuit}, c.Reachable → ∀ p : Properties V,
    runPasses true c p passes = runPasses false c p passes ∧
      (runPasses true c p passes).circuit.Reachable
  | [], _, _, hc, _ => ⟨rfl, hc⟩
  | pass :: rest, hpasses, c, hc, p => by
    have hrest : ∀ pass ∈ rest, pass.EditsOnly := fun q hq => hpasses q (List.mem_cons_of_mem _ hq)
    by_cases happ : pass.applies c p
    · have hreach := (hpasses pass (by simp)).reachable hc p
      obtain ⟨ops, h⟩ := hreach.wired
      have hverdict : ∀ checks, verdict checks pass.name ((pass.run c p).after [.running pass.name]) =
          (pass.run c p).result := fun checks => verdict_of_check checks pass.name h.check_eq_ok
      simp only [runPasses, if_pos happ, hverdict]
      cases (pass.run c p).result with
      | error e => exact ⟨rfl, hreach⟩
      | ok =>
        obtain ⟨heq, hend⟩ := runPasses_checks rest hrest hreach (pass.run c p).properties
        exact ⟨congrArg (Outcome.after _) heq, hend⟩
    · obtain ⟨heq, hend⟩ := runPasses_checks rest hrest hc p
      simp only [runPasses, if_neg happ]
      exact ⟨congrArg (Outcome.after _) heq, hend⟩

end

/-! ## Scripted passes -/

section
variable {κ : Type} [DecidableEq κ] {V : κ → Type}

theorem Action.edits_perform (pass : String) (c : Circuit) (p : Properties V) (a : Action V) :
    ReflTransGen Circuit.Edit c (a.perform pass c p).circuit := by
  cases a with
  | append i =>
    have hcircuit : ((append i).perform pass c p).circuit = (c.append i).2 := by
      rw [perform]
      split <;> simp_all
    rw [hcircuit]
    exact .single (.append c i)
  | remove n =>
    have hcircuit : ((remove n).perform pass c p).circuit = (c.remove n).2 := by
      rw [perform]
      split <;> simp_all
    rw [hcircuit]
    exact .single (.remove c n)
  | check => exact .refl
  | record k value => exact .refl
  | fail reason => exact .refl
  | rejectConfiguration reason => exact .refl

theorem Action.edits_performAll (pass : String) : ∀ (as : List (Action V)) (c : Circuit)
    (p : Properties V), ReflTransGen Circuit.Edit c (performAll pass c p as).circuit
  | [], _, _ => .refl
  | a :: as, c, p => by
    have hstep := edits_perform pass c p a
    rw [performAll]
    split
    · exact hstep
    · exact hstep.trans (edits_performAll pass as _ _)

theorem Pass.ofScript_editsOnly (name : String) (kind : PassKind)
    (applies : Circuit → Properties V → Bool) (script : List (Action V)) :
    (Pass.ofScript name kind applies script).EditsOnly :=
  Action.edits_performAll name script

end

/-! ## Pipelines of such passes -/

/-- **Checks are transparent and failures do no harm.** A pipeline of passes that only make
edits ends with the same outcome whether or not it checks, and with a circuit whose wires are
chains, so that the check accepts it and another run can follow. -/
theorem checks_are_transparent {κ : Type} {V : κ → Type} (passes : List (Pass V))
    (hpasses : ∀ pass ∈ passes, pass.EditsOnly) {c : Circuit} (hc : c.Reachable) (p : Properties V) :
    let o := Pipeline.run ⟨passes, true⟩ c p
    o = Pipeline.run ⟨passes, false⟩ c p ∧ o.circuit.Reachable ∧ o.circuit.Chained ∧
      o.circuit.check = .ok () := by
  obtain ⟨heq, hreach⟩ := Pipeline.runPasses_checks passes hpasses hc p
  obtain ⟨ops, h⟩ := hreach.wired
  exact ⟨congrArg (Outcome.after _) heq, hreach, h.chained, h.check_eq_ok⟩

theorem checks_are_transparent_on_failure :
    let c := (Circuit.ofSize 1 1).appendAll [.reset ⟨0⟩, .reset ⟨0⟩, .measure ⟨0⟩ ⟨0⟩]
    let passes : List (Pass fun _ : Unit => Nat) :=
      [.mergeResets,
        .ofScript "idle" .analysis (fun c _ => c.opCount == 0) [.rejectConfiguration "no operations"],
        .ofScript "grow" .transformation (fun _ p => p.contains .cleanup)
          [.append (.gateOn .x ⟨0⟩), .record () Circuit.opCount, .remove 99, .append (.reset ⟨0⟩)],
        .trimResets]
    let o := Pipeline.run ⟨passes, true⟩ c .empty
    c.Reachable ∧ (∀ pass ∈ passes, pass.EditsOnly) ∧ o.result = .error (.circuit (.deadNode 99)) ∧
      o.circuit.opsOn (.qubit ⟨0⟩) = .ok [.reset ⟨0⟩, .measure ⟨0⟩ ⟨0⟩, .gateOn .x ⟨0⟩] ∧
      o = Pipeline.run ⟨passes, false⟩ c .empty ∧ o.circuit.check = .ok () := by
  intro c passes o
  have hreach : c.Reachable := (Circuit.reachable_ofSize 1 1).appendAll _
  have hpasses : ∀ pass ∈ passes, pass.EditsOnly := by
    simp only [passes, List.forall_mem_cons]
    exact ⟨Pass.mergeResets_editsOnly, Pass.ofScript_editsOnly _ _ _ _,
      Pass.ofScript_editsOnly _ _ _ _, Pass.trimResets_editsOnly, by simp⟩
  obtain ⟨heq, -, -, hcheck⟩ := checks_are_transparent passes hpasses hreach .empty
  exact ⟨hreach, hpasses, by decide +kernel, by decide +kernel, heq, hcheck⟩

end QuantumCircuit
