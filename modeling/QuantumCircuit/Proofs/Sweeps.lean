import QuantumCircuit.Proofs.Resets

/-!
# Runs of the cleanup passes

The cleanup passes succeed, alone or in a pipeline, whether or not it checks the circuit. What
a list of them leaves is what their sweeps leave one after another, and for each pass the
statistics grow by what its own runs took out, which is also what the log tells of it.
-/

namespace QuantumCircuit

inductive CleanupPass where
  | merge
  | trim
deriving DecidableEq

namespace CleanupPass

def sweep : CleanupPass → Circuit → Sweep
  | merge, c => c.mergeResets
  | trim, c => c.trimResets

def takes : CleanupPass → Circuit → NodeId → Bool
  | merge, c, n => c.isSuperseded n
  | trim, c, n => c.isTrailing n

def counter : CleanupPass → CleanupStats → UInt64
  | merge, s => s.duplicateRemoved
  | trim, s => s.finalRemoved

def reports : CleanupPass → Event → Bool
  | merge, .removedDuplicate _ => true
  | trim, .removedFinal _ => true
  | _, _ => false

def toPass {κ : Type} [DecidableEq κ] {V : κ → Type} : CleanupPass → Pass V
  | merge => .mergeResets
  | trim => .trimResets

/-- How many operations the runs of `k` in the list take out, if it starts from `c`. -/
def share (k : CleanupPass) (c : Circuit) : List CleanupPass → Nat
  | [] => 0
  | j :: js => (if j = k then c.opCount - (j.sweep c).circuit.opCount else 0) +
      k.share (j.sweep c).circuit js

end CleanupPass

def Circuit.sweepAll (c : Circuit) (ks : List CleanupPass) : Circuit :=
  ks.foldl (fun c k => (k.sweep c).circuit) c

theorem Instruction.name_eq_reset (i : Instruction) : i.name = "reset" ↔ i.isReset := by
  obtain ⟨op, qs, bs⟩ := i
  cases op with
  | gate g => cases g <;> simp [name, Operation.name, Gate.name, isReset]
  | _ => simp [name, Operation.name, isReset]

/-! ## Sweeps -/

namespace CleanupPass

variable {c : Circuit} {ops : Wire → List NodeId}

theorem takes_reset (k : CleanupPass) (c : Circuit) (n : NodeId) (h : k.takes c n) :
    ∃ i, c.instruction? n = some i ∧ i.isReset := by
  have hf : ∃ p, c.follower? n = some p := by
    cases k with
    | merge =>
      obtain ⟨q, m, hm, -⟩ := Circuit.isSuperseded_iff.mp h
      exact ⟨_, hm⟩
    | trim =>
      obtain ⟨q, m, hm, -⟩ := Circuit.isTrailing_iff.mp h
      exact ⟨_, hm⟩
  obtain ⟨p, hp⟩ := hf
  obtain ⟨q, hq, -⟩ := Option.bind_eq_some_iff.mp hp
  obtain ⟨i, hi, hr, -⟩ := Circuit.loneReset?_eq_some.mp hq
  exact ⟨i, hi, hr⟩

theorem sweep_spec (k : CleanupPass) (h : c.Wired ops) :
    (k.sweep c).result = .ok () ∧ ∃ ds, (∀ n, n ∈ ds ↔ k.takes c n) ∧
      ds.length = (k.sweep c).removed ∧
      Circuit.Drops (fun c n => k.takes c n) c ds (k.sweep c).circuit := by
  cases k with
  | merge => exact h.mergeResets_spec
  | trim => exact h.trimResets_spec

theorem sweep_cuts (k : CleanupPass) (h : c.Wired ops) :
    ∃ ds, (∀ n, n ∈ ds ↔ k.takes c n) ∧ c.Cuts ops ds (k.sweep c).circuit := by
  obtain ⟨-, ds, hds, -, hdrops⟩ := k.sweep_spec h
  refine ⟨ds, hds, hdrops.cuts ?_ h⟩
  intro c n hn
  obtain ⟨i, hi, -⟩ := k.takes_reset c n hn
  rw [hi]; rfl

theorem wired_sweep (k : CleanupPass) (h : c.Wired ops) : ∃ ops', (k.sweep c).circuit.Wired ops' := by
  obtain ⟨ds, -, s⟩ := k.sweep_cuts h
  exact ⟨_, s.wired⟩

theorem length_opsWhere_sweep (k : CleanupPass) (h : c.Wired ops) {p : Instruction → Bool} {b : Nat}
    (hp : ∀ i : Instruction, i.isReset → (if p i then 1 else 0) = b) :
    (c.opsWhere p).length = ((k.sweep c).circuit.opsWhere p).length + b * (k.sweep c).removed := by
  obtain ⟨-, ds, -, hlen, hdrops⟩ := k.sweep_spec h
  rw [← hlen]
  refine hdrops.length_opsWhere ?_ h
  intro c n hn
  obtain ⟨i, hi, hr⟩ := k.takes_reset c n hn
  exact ⟨i, hi, hp i hr⟩

theorem opCount_sweep (k : CleanupPass) (h : c.Wired ops) :
    c.opCount = (k.sweep c).circuit.opCount + (k.sweep c).removed := by
  obtain ⟨ops', h'⟩ := k.wired_sweep h
  rw [h.opCount_eq, h'.opCount_eq, k.length_opsWhere_sweep h (b := 1) fun _ _ => rfl, Nat.one_mul]

theorem countNamed_reset_sweep (k : CleanupPass) (h : c.Wired ops) :
    c.countNamed "reset" = (k.sweep c).circuit.countNamed "reset" + (k.sweep c).removed := by
  have hp : ∀ i : Instruction, i.isReset → (if i.name == "reset" then 1 else 0) = 1 := by
    intro i hi
    simp [i.name_eq_reset.mpr hi]
  rw [Circuit.countNamed, k.length_opsWhere_sweep h hp, Nat.one_mul]; rfl

theorem countNamed_sweep (k : CleanupPass) (h : c.Wired ops) {name : String} (hname : name ≠ "reset") :
    (k.sweep c).circuit.countNamed name = c.countNamed name := by
  have hp : ∀ i : Instruction, i.isReset → (if i.name == name then 1 else 0) = 0 := by
    intro i hi
    simp [i.name_eq_reset.mpr hi, Ne.symm hname]
  rw [Circuit.countNamed, Circuit.countNamed, k.length_opsWhere_sweep h hp, Nat.zero_mul, Nat.add_zero]

end CleanupPass

theorem Circuit.Wired.sweepAll : ∀ (ks : List CleanupPass) {c : Circuit} {ops : Wire → List NodeId},
    c.Wired ops → ∃ ops', (c.sweepAll ks).Wired ops'
  | [], _, ops, h => ⟨ops, h⟩
  | k :: ks, _, _, h => by
    obtain ⟨ops', h'⟩ := k.wired_sweep h
    exact sweepAll ks h'

/-! ## What a sweep tells -/

/-- The events tell of as many operations taken out by `k` as were counted, and of none by the
other pass. -/
def Sweep.Tells (k : CleanupPass) (s : Sweep) : Prop :=
  ∀ j : CleanupPass, s.log.countP j.reports = if j = k then s.removed else 0

namespace Sweep.Tells

variable {k : CleanupPass} {s : Sweep} {e : Event}

theorem done (c : Circuit) : (Sweep.done c).Tells k := by
  intro j
  simp [Sweep.done]

theorem failed (c : Circuit) (e : CircuitError) : (Sweep.failed c e).Tells k := by
  intro j
  simp [Sweep.failed]

theorem noting (h : s.Tells k) (he : ∀ j : CleanupPass, j.reports e = false) : (s.noting e).Tells k := by
  intro j
  rw [Sweep.noting, List.countP_cons, h j, he]
  rfl

theorem counting (h : s.Tells k) (he : ∀ j : CleanupPass, j.reports e = decide (j = k)) :
    (s.counting e).Tells k := by
  intro j
  rw [Sweep.counting, List.countP_cons, h j, he]
  by_cases hj : j = k <;> simp [hj]

end Sweep.Tells

theorem Circuit.tells_mergeResetsAt (c : Circuit) (ns : List NodeId) :
    (c.mergeResetsAt ns).Tells .merge := by
  fun_induction c.mergeResetsAt ns with
  | case1 => exact .done _
  | case2 => exact .failed _ _
  | case3 => exact .failed _ _
  | case4 => exact .failed _ _
  | case5 =>
    rename_i ih
    exact ih.counting fun j => by cases j <;> rfl
  | case6 => assumption
  | case7 =>
    rename_i ih
    exact ih.noting fun j => by cases j <;> rfl

theorem Circuit.tells_trimResetsAt (c : Circuit) (es : List (Wire × NodeId)) :
    (c.trimResetsAt es).Tells .trim := by
  fun_induction c.trimResetsAt es with
  | case1 => exact .done _
  | case2 => exact .failed _ _
  | case3 => assumption
  | case4 => exact .failed _ _
  | case5 =>
    rename_i ih
    exact ih.counting fun j => by cases j <;> rfl
  | case6 =>
    rename_i ih
    exact ih.noting fun j => by cases j <;> rfl
  | case7 => assumption
  | case8 => assumption

theorem CleanupPass.tells_sweep (k : CleanupPass) (c : Circuit) : (k.sweep c).Tells k := by
  cases k with
  | merge => exact c.tells_mergeResetsAt _
  | trim => exact c.tells_trimResetsAt _

/-! ## Outcomes -/

theorem CleanupPass.share_append (k : CleanupPass) : ∀ (js ks : List CleanupPass) (c : Circuit),
    k.share c (js ++ ks) = k.share c js + k.share (c.sweepAll js) ks
  | [], ks, c => (Nat.zero_add _).symm
  | j :: js, ks, c => by
    rw [List.cons_append, share, share, share_append k js ks, Nat.add_assoc]
    rfl

/-! ## Counters -/

/-- The counter that stood at `x` stands at `y` after `n` more. It wraps around, so the number it
shows has grown by `n` unless that is more than a word can hold. -/
structure Advances (n : Nat) (x y : UInt64) : Prop where
  wraps : y = x + .ofNat n
  exact : x.toNat + n < UInt64.size → y.toNat = x.toNat + n

namespace Advances

variable {m n : Nat} {x y z : UInt64}

theorem of_eq (h : y = x + .ofNat n) : Advances n x y := by
  refine ⟨h, fun hfits => ?_⟩
  have hn : (UInt64.ofNat n).toNat = n := UInt64.toNat_ofNat_of_lt' (by omega)
  rw [h, UInt64.toNat_add, hn]
  exact Nat.mod_eq_of_lt hfits

theorem zero_iff : Advances 0 x y ↔ y = x := by
  constructor
  · intro h
    rw [h.wraps]
    exact UInt64.add_zero x
  · intro h
    exact of_eq (h.trans (UInt64.add_zero x).symm)

theorem trans (h : Advances m x y) (h' : Advances n y z) : Advances (m + n) x z := by
  apply of_eq
  rw [h'.wraps, h.wraps, UInt64.add_assoc, UInt64.ofNat_add]

end Advances

section
variable {κ : Type} [DecidableEq κ] {V : κ → Type}

def Properties.stats (p : Properties V) : CleanupStats := (p.get? .cleanup).getD {}

/-- The passes `ks`, run from `c` with the properties `p`, succeed with the circuit that their
sweeps leave, and what they took out is in the statistics and in the log. -/
structure Accounts (c : Circuit) (p : Properties V) (ks : List CleanupPass) (o : Outcome V) : Prop where
  ok : o.result = .ok ()
  circuit : o.circuit = c.sweepAll ks
  counted : ∀ k : CleanupPass, Advances (k.share c ks) (k.counter p.stats) (k.counter o.properties.stats)
  told : ∀ k : CleanupPass, o.log.countP k.reports = k.share c ks
  recorded : ks ≠ [] ∨ (p.get? .cleanup).isSome → (o.properties.get? .cleanup).isSome
  custom : ∀ x, o.properties.get? (.custom x) = p.get? (.custom x)

namespace Accounts

variable {c : Circuit} {p : Properties V} {js ks : List CleanupPass} {o o' : Outcome V}
  {events : List Event}

theorem nil (c : Circuit) (p : Properties V) (hevents : ∀ k : CleanupPass, events.countP k.reports = 0) :
    Accounts c p [] { result := .ok (), circuit := c, properties := p, log := events } :=
  ⟨rfl, rfl, fun _ => Advances.zero_iff.mpr rfl, hevents, fun h => h.resolve_left (fun hne => hne rfl), fun _ => rfl⟩

theorem trans (h : Accounts c p js o) (h' : Accounts o.circuit o.properties ks o')
    (hevents : ∀ k : CleanupPass, events.countP k.reports = o.log.countP k.reports) :
    Accounts c p (js ++ ks) (o'.after events) where
  ok := h'.ok
  circuit := by
    rw [Circuit.sweepAll, List.foldl_append]
    exact h'.circuit.trans (by rw [h.circuit]; rfl)
  counted := by
    intro k
    have hk := (h.counted k).trans (h'.counted k)
    rwa [h.circuit, ← k.share_append] at hk
  told := by
    intro k
    have hk := h'.told k
    rw [h.circuit] at hk
    rw [Outcome.after, List.countP_append, hevents, h.told, hk, k.share_append]
  recorded := by
    intro hsome
    by_cases hks : ks = []
    · refine h'.recorded (.inr (h.recorded ?_))
      rwa [hks, List.append_nil] at hsome
    · exact h'.recorded (.inl hks)
  custom := fun x => (h'.custom x).trans (h.custom x)

end Accounts

/-! ## The passes and their pipelines -/

theorem Sweep.outcome_of_ok {s : Sweep} (h : s.result = .ok ()) (add : CleanupStats → UInt64 → CleanupStats)
    (p : Properties V) : s.outcome add p =
      { result := .ok (), circuit := s.circuit,
        properties := p.modifyD .cleanup {} (add · (.ofNat s.removed)), log := s.log } := by
  unfold outcome
  rw [h]

namespace CleanupPass

variable {c : Circuit} {ops : Wire → List NodeId}

def count : CleanupPass → CleanupStats → UInt64 → CleanupStats
  | merge => CleanupStats.addDuplicate
  | trim => CleanupStats.addFinal

theorem advances_count (j k : CleanupPass) (s : CleanupStats) (n : Nat) :
    Advances (if k = j then n else 0) (j.counter s) (j.counter (k.count s (.ofNat n))) := by
  by_cases hkj : k = j
  · subst hkj
    rw [if_pos rfl]
    apply Advances.of_eq
    cases k <;> rfl
  · rw [if_neg hkj, Advances.zero_iff]
    cases j <;> cases k <;> first | rfl | exact absurd rfl hkj

theorem run_toPass (k : CleanupPass) (c : Circuit) (p : Properties V) :
    k.toPass.run c p = (k.sweep c).outcome k.count p := by
  cases k <;> rfl

theorem share_singleton (j k : CleanupPass) (h : c.Wired ops) :
    j.share c [k] = if k = j then (k.sweep c).removed else 0 := by
  have := k.opCount_sweep h
  simp only [share, Nat.add_zero]
  split
  · omega
  · rfl

theorem accounts_run (k : CleanupPass) (h : c.Wired ops) (p : Properties V) :
    Accounts c p [k] (k.toPass.run c p) := by
  rw [run_toPass, Sweep.outcome_of_ok (k.sweep_spec h).1]
  have hsome : (p.modifyD .cleanup {} (k.count · (.ofNat (k.sweep c).removed))).get? .cleanup =
      some (k.count p.stats (.ofNat (k.sweep c).removed)) := p.get?_modifyD_self _ _ _
  have hstats : Properties.stats (p.modifyD .cleanup {} (k.count · (.ofNat (k.sweep c).removed))) =
      k.count p.stats (.ofNat (k.sweep c).removed) := by
    rw [Properties.stats, hsome, Option.getD_some]
  refine ⟨rfl, rfl, ?_, ?_, fun _ => by rw [hsome]; rfl, ?_⟩
  · intro j
    have hcount := j.advances_count k p.stats (k.sweep c).removed
    rw [← hstats, ← j.share_singleton k h] at hcount
    exact hcount
  · intro j
    rw [k.tells_sweep c j, j.share_singleton k h]
    simp only [eq_comm]
  · intro x
    exact p.get?_modifyD_of_ne (by simp) _ _

end CleanupPass

omit [DecidableEq κ] in
theorem Pipeline.verdict_of_check (checks : Bool) (name : String) {o : Outcome V}
    (h : o.circuit.check = .ok ()) : verdict checks name o = o.result := by
  unfold verdict
  cases o.result with
  | error e => rfl
  | ok =>
    cases checks with
    | false => rfl
    | true => simp [h, Except.mapError]

omit [DecidableEq κ] in
theorem Pipeline.runPasses_cons_of_ok (checks : Bool) {c : Circuit} {p : Properties V} {pass : Pass V}
    (rest : List (Pass V)) (happ : pass.applies c p) (hok : (pass.run c p).result = .ok ())
    (hcheck : (pass.run c p).circuit.check = .ok ()) :
    let o := pass.run c p
    runPasses checks c p (pass :: rest) = (runPasses checks o.circuit o.properties rest).after
      ([.running pass.name] ++ o.log ++ [.completed pass.name o.circuit.opCount]) := by
  have hverdict : verdict checks pass.name ((pass.run c p).after [.running pass.name]) = .ok () :=
    (verdict_of_check checks pass.name hcheck).trans hok
  rw [runPasses, if_pos happ]
  dsimp only
  rw [hverdict]
  rfl

theorem Circuit.Wired.accounts_runPasses (checks : Bool) : ∀ (ks : List CleanupPass) {c : Circuit}
    {ops : Wire → List NodeId}, c.Wired ops → ∀ p : Properties V,
    Accounts c p ks (Pipeline.runPasses checks c p (ks.map CleanupPass.toPass))
  | [], c, ops, _, p => .nil c p fun k => by cases k <;> rfl
  | k :: ks, c, ops, h, p => by
    have hrun := k.accounts_run h p
    obtain ⟨ops', h'⟩ := k.wired_sweep h
    have hcirc : (k.toPass.run c p).circuit.Wired ops' := by rw [hrun.circuit]; exact h'
    have happ : (k.toPass : Pass V).applies c p := by cases k <;> rfl
    rw [List.map_cons, Pipeline.runPasses_cons_of_ok checks _ happ hrun.ok hcirc.check_eq_ok]
    refine hrun.trans (accounts_runPasses checks ks hcirc _) fun j => ?_
    cases j <;> simp [CleanupPass.reports]

theorem Circuit.Wired.accounts_pipeline {c : Circuit} {ops : Wire → List NodeId} (h : c.Wired ops)
    (ks : List CleanupPass) (checks : Bool) (p : Properties V) :
    Accounts c p ks (Pipeline.run ⟨ks.map CleanupPass.toPass, checks⟩ c p) := by
  have hstart : Accounts c p [] { result := .ok (), circuit := c, properties := p } :=
    .nil c p fun _ => rfl
  refine hstart.trans (h.accounts_runPasses checks ks p) fun j => ?_
  cases j <;> rfl

end

end QuantumCircuit
