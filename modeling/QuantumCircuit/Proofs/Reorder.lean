import QuantumCircuit.Proofs.Cleanup
import QuantumCircuit.Proofs.Replay

/-!
# The order of independent instructions

Neighbours of a program without a common wire can change places: a circuit that holds the
program holds it either way. What a cleanup pass does to a circuit is told by the program that
the circuit holds, so circuits that hold the same program are cleaned up alike.
-/

namespace QuantumCircuit

namespace Swaps

variable {α β : Type} {apart : α → α → Prop} {l l' : List α}

theorem append_left (h : Swaps apart l l') : ∀ p : List α, Swaps apart (p ++ l) (p ++ l')
  | [] => h
  | a :: p => (h.append_left p).cons a

theorem map {apart' : β → β → Prop} {f : α → β} (hf : ∀ a b, apart a b → apart' (f a) (f b))
    (h : Swaps apart l l') : Swaps apart' (l.map f) (l'.map f) := by
  rw [← List.filterMap_eq_map]
  apply h.filterMap
  intro a b x y hab hx hy
  obtain rfl : f a = x := Option.some.inj hx
  obtain rfl : f b = y := Option.some.inj hy
  exact hf a b hab

theorem filter (p : α → Bool) (h : Swaps apart l l') : Swaps apart (l.filter p) (l'.filter p) := by
  rw [← List.filterMap_eq_filter]
  apply h.filterMap
  intro a b x y hab hx hy
  obtain ⟨rfl, -⟩ := Option.guard_eq_some_iff.mp hx
  obtain ⟨rfl, -⟩ := Option.guard_eq_some_iff.mp hy
  exact hab

end Swaps

namespace Circuit

variable {c d : Circuit} {ops : Wire → List NodeId} {is js : List Instruction} {i : Instruction}
  {n : NodeId}

/-! ## Neighbours change places -/

theorem Linear.swap {p r : List NodeId} {a b : NodeId} (hl : c.Linear ops (p ++ a :: b :: r))
    (hab : Apart ops a b) : c.Linear ops (p ++ b :: a :: r) := by
  have hperm : (p ++ a :: b :: r).Perm (p ++ b :: a :: r) := .append_left p (.swap b a r)
  refine ⟨hperm.nodup_iff.mp hl.nodup, fun n => ?_, fun w => ?_⟩
  · rw [← hperm.mem_iff]
    exact hl.mem_iff n
  · have hsame : (p ++ b :: a :: r).filter (· ∈ ops w) = (p ++ a :: b :: r).filter (· ∈ ops w) := by
      by_cases ha : a ∈ ops w
      · simp [ha, hab w ha]
      · simp [List.filter_cons, ha]
    rw [← hl.on_wire w, ← hsame]
    exact List.filter_sublist

theorem Linear.filterMap_eq_cons {p l : List NodeId} (hl : c.Linear ops (p ++ l))
    (heq : l.filterMap c.instruction? = i :: is) :
    ∃ n r, l = n :: r ∧ c.instruction? n = some i ∧ r.filterMap c.instruction? = is := by
  cases l with
  | nil => cases heq
  | cons n r =>
    obtain ⟨j, hj⟩ := Option.isSome_iff_exists.mp ((hl.mem_iff n).mp (by simp))
    rw [List.filterMap_cons_some hj] at heq
    obtain ⟨rfl, hr⟩ := List.cons.inj heq
    exact ⟨n, r, rfl, hj, hr⟩

theorem Holds.swap {p r : List Instruction} {i j : Instruction} (h : c.Holds (p ++ i :: j :: r))
    (hij : i.Apart j) : c.Holds (p ++ j :: i :: r) := by
  obtain ⟨ops, l, hc, hl, heq⟩ := h
  obtain ⟨l₁, l₂, rfl, rfl, h₂⟩ := List.filterMap_eq_append_iff.mp heq
  obtain ⟨a, l₃, rfl, ha, h₃⟩ := hl.filterMap_eq_cons h₂
  obtain ⟨b, l₄, rfl, hb, rfl⟩ := Linear.filterMap_eq_cons (p := l₁ ++ [a]) (by simpa using hl) h₃
  have hab : Apart ops a b := by
    intro w haw hbw
    obtain ⟨i', hi', hwi⟩ := (hc.mem_ops w a).mp haw
    obtain ⟨j', hj', hwj⟩ := (hc.mem_ops w b).mp hbw
    obtain rfl := Option.some.inj (ha.symm.trans hi')
    obtain rfl := Option.some.inj (hb.symm.trans hj')
    exact hij w hwi hwj
  refine ⟨ops, l₁ ++ b :: a :: l₄, hc, hl.swap hab, ?_⟩
  rw [List.filterMap_append, List.filterMap_cons_some hb, List.filterMap_cons_some ha]

theorem Holds.swaps (h : c.Holds is) (hs : Swaps Instruction.Apart is js) : c.Holds js := by
  induction hs with
  | refl => exact h
  | tail _ hswap ih =>
    obtain ⟨p, r, hij⟩ := hswap
    exact ih.swap hij

end Circuit

/-! ## Cleaning up a program -/

namespace CleanupPass

/-- Whether the pass takes out a reset of one qubit with `next`, if anything, after it there. -/
def dropsBefore : CleanupPass → (next : Option Instruction) → Bool
  | merge, next => next.any (·.isReset)
  | trim, next => next.isNone

def strikes (k : CleanupPass) (i : Instruction) (later : List Instruction) : Bool :=
  match i with
  | ⟨.reset, [q], _⟩ => k.dropsBefore (later.find? (.qubit q ∈ ·.wires))
  | _ => false

def prune (k : CleanupPass) : List Instruction → List Instruction
  | [] => []
  | i :: later => if k.strikes i later then k.prune later else i :: k.prune later

variable {c : Circuit} {ops : Wire → List NodeId} {n : NodeId} {i : Instruction}

theorem takes_eq_false (k : CleanupPass) (h : c.loneReset? n = none) : k.takes c n = false := by
  have hf : c.follower? n = none := by rw [Circuit.follower?, h]; rfl
  cases k with
  | merge => simp [takes, Circuit.isSuperseded, hf]
  | trim => simp [takes, Circuit.isTrailing, hf]

theorem find?_filterMap (h : c.Wired ops) (l : List NodeId) (w : Wire) :
    (l.filterMap c.instruction?).find? (w ∈ ·.wires) =
      (l.filter (· ∈ ops w)).head?.bind c.instruction? := by
  rw [List.find?_filterMap, List.head?_filter]
  congr 2
  funext n
  have hmem := h.mem_ops w n
  cases hi : c.instruction? n with
  | none => simp_all
  | some i => simp_all

theorem takes_eq_strikes (k : CleanupPass) (h : c.Wired ops) {p r : List NodeId}
    (hl : c.Linear ops (p ++ n :: r)) (hi : c.instruction? n = some i) :
    k.takes c n = k.strikes i (r.filterMap c.instruction?) := by
  cases hq : c.loneReset? n with
  | none =>
    rw [k.takes_eq_false hq]
    unfold Circuit.loneReset? at hq
    rw [hi] at hq
    unfold strikes
    split
    · cases hq
    · rfl
  | some q =>
    obtain ⟨j, hj, hr, hqs⟩ := Circuit.loneReset?_eq_some.mp hq
    obtain rfl := Option.some.inj (hi.symm.trans hj)
    obtain ⟨p', r', hops⟩ := List.append_of_mem ((h.mem_ops_of_loneReset? hq q).mpr rfl)
    obtain ⟨a, b, hab, hb⟩ := hl.split hops
    obtain ⟨-, rfl⟩ := split_unique hl.nodup hab
    have hstrikes : k.strikes i (r.filterMap c.instruction?) =
        k.dropsBefore (r'.head?.bind c.instruction?) := by
      obtain ⟨o, qs, bs⟩ := i
      obtain rfl : qs = [q] := hqs
      obtain rfl : o = .reset := by simpa [Instruction.isReset] using hr
      rw [strikes, find?_filterMap h, hb]
    rw [hstrikes]
    cases k with
    | merge =>
      rw [takes, h.isSuperseded_eq_head hq hops, dropsBefore, Option.any_bind]
      congr 1
      funext m
      exact c.isResetAt_eq_any m
    | trim =>
      rw [takes, h.isTrailing_eq_isEmpty hq hops, dropsBefore]
      cases r' with
      | nil => rfl
      | cons m t =>
        obtain ⟨j, hj, -⟩ := (h.mem_ops (.qubit q) m).mp (by rw [hops]; simp)
        simp [hj]

theorem prune_eq (k : CleanupPass) (h : c.Wired ops) : ∀ (r : List NodeId) {p : List NodeId},
    c.Linear ops (p ++ r) →
    k.prune (r.filterMap c.instruction?) = (r.filter (!k.takes c ·)).filterMap c.instruction?
  | [], _, _ => rfl
  | n :: r, p, hl => by
    have ih := k.prune_eq h r (p := p ++ [n]) (by simpa using hl)
    obtain ⟨i, hi⟩ := Option.isSome_iff_exists.mp ((hl.mem_iff n).mp (by simp))
    rw [List.filterMap_cons_some hi, prune, ← k.takes_eq_strikes h hl hi, ih]
    by_cases hn : k.takes c n
    · simp [hn]
    · simp [hn, hi]

end CleanupPass

namespace Circuit

variable {c d : Circuit} {is js : List Instruction}

theorem Holds.sweep (h : c.Holds is) (k : CleanupPass) :
    (k.sweep c).circuit.Holds (k.prune is) ∧ ∀ w, (k.sweep c).circuit.hasWire w = c.hasWire w := by
  obtain ⟨ops, l, hc, hl, rfl⟩ := h
  obtain ⟨ds, hds, s⟩ := k.sweep_cuts hc
  refine ⟨⟨_, _, s.wired, s.linear hl, ?_⟩, s.hasWire⟩
  have hkeep : l.filter (· ∉ ds) = l.filter (!k.takes c ·) := by
    apply List.filter_congr
    intro n _
    by_cases hn : k.takes c n <;> simp [hds, hn]
  rw [k.prune_eq hc l (p := []) hl, s.filterMap_instruction?, hkeep]

theorem Holds.sweepAll : ∀ (ks : List CleanupPass) {c : Circuit} {is : List Instruction},
    c.Holds is → (c.sweepAll ks).Holds (ks.foldl (fun is k => k.prune is) is) ∧
      ∀ w, (c.sweepAll ks).hasWire w = c.hasWire w
  | [], _, _, h => ⟨h, fun _ => rfl⟩
  | k :: ks, c, is, h => by
    obtain ⟨hk, hw⟩ := h.sweep k
    obtain ⟨hks, hws⟩ := Holds.sweepAll ks hk
    exact ⟨hks, fun w => (hws w).trans (hw w)⟩

theorem Holds.share_eq (k : CleanupPass) : ∀ (ks : List CleanupPass) {c d : Circuit}
    {is : List Instruction}, c.Holds is → d.Holds is → k.share c ks = k.share d ks
  | [], _, _, _, _, _ => rfl
  | j :: ks, c, d, is, hc, hd => by
    have hc' := (hc.sweep j).1
    have hd' := (hd.sweep j).1
    rw [CleanupPass.share, CleanupPass.share, hc.opCount_eq, hd.opCount_eq, hc'.opCount_eq,
      hd'.opCount_eq, Holds.share_eq k ks hc' hd']

/-! ## Answers -/

/-- Each instruction with the answer it gets when its turn comes: why it is refused, if it is. -/
def answers (c : Circuit) : List Instruction → List (Instruction × Option CircuitError)
  | [] => []
  | i :: is =>
    match c.append i with
    | (.ok _, c') => (i, none) :: c'.answers is
    | (.error e, c') => (i, some e) :: c'.answers is

theorem Holds.answers_eq : ∀ (is : List Instruction) {c : Circuit} {js : List Instruction},
    c.Holds js → c.answers is = is.map fun i => (i, c.refusal? i)
  | [], _, _, _ => rfl
  | i :: is, c, js, h => by
    rw [answers, List.map_cons]
    cases hi : c.refusal? i with
    | some e =>
      rw [append_of_refusal hi]
      exact congrArg _ (Holds.answers_eq is h)
    | none =>
      obtain ⟨n, c', heq, h', hw⟩ := h.append hi
      have ih := Holds.answers_eq is h'
      simp only [refusal?_congr hw] at ih
      rw [heq]
      exact congrArg _ ih

end Circuit

section
variable {κ : Type} [DecidableEq κ] {V : κ → Type}

/-- **The order of independent instructions does not matter.** When neighbours without a common
wire change places, each instruction gets the answer it got before, the circuits agree in all
that can be asked without naming a node, and the cleanup leaves them so, with the same additions
to the statistics. -/
theorem independent_order_is_irrelevant {c : Circuit} (hc : c.Reachable) {is js : List Instruction}
    (hswaps : Swaps Instruction.Apart is js) (plan : CleanupPlan V) (hm : plan.options.mergeResets)
    (ht : plan.options.trimResets) (p p' : Properties V) :
    let o := plan.build.1.run (c.appendAll is) p
    let o' := plan.build.1.run (c.appendAll js) p'
    Swaps (fun a b => a.1.Apart b.1) (c.answers is) (c.answers js) ∧
      (c.appendAll is).Alike (c.appendAll js) ∧
      o.result = .ok () ∧ o'.result = .ok () ∧ o.circuit.Alike o'.circuit ∧
      ∀ k : CleanupPass, ∃ m, (o.log.countP k.reports = m ∧ o'.log.countP k.reports = m) ∧
        Advances m (k.counter p.stats) (k.counter o.properties.stats) ∧
        Advances m (k.counter p'.stats) (k.counter o'.properties.stats) := by
  intro o o'
  obtain ⟨ops, h⟩ := hc.wired
  have hread := h.holds_readOut
  obtain ⟨hi, hiw⟩ := Circuit.Holds.appendAll is hread
  obtain ⟨hj, hjw⟩ := Circuit.Holds.appendAll js hread
  -- both circuits hold the second program
  have hi' := hi.swaps ((hswaps.filter _).append_left _)
  obtain ⟨opsᵢ, hwᵢ⟩ := (hc.appendAll is).wired
  obtain ⟨opsⱼ, hwⱼ⟩ := (hc.appendAll js).wired
  have hrun : Accounts _ p _ o := hwᵢ.accounts_plan plan hm ht p
  have hrun' : Accounts _ p' _ o' := hwⱼ.accounts_plan plan hm ht p'
  obtain ⟨hci, hciw⟩ := Circuit.Holds.sweepAll [.merge, .trim] hi'
  obtain ⟨hcj, hcjw⟩ := Circuit.Holds.sweepAll [.merge, .trim] hj
  refine ⟨?_, hi'.alike hj fun w => (hiw w).trans (hjw w).symm, hrun.ok, hrun'.ok, ?_, ?_⟩
  · rw [hread.answers_eq, hread.answers_eq]
    exact hswaps.map fun a b hab => hab
  · rw [hrun.circuit, hrun'.circuit]
    refine hci.alike hcj fun w => ?_
    rw [hciw, hcjw, hiw, hjw]
  · intro k
    have hshare := Circuit.Holds.share_eq k [.merge, .trim] hi' hj
    refine ⟨_, ⟨hrun.told k, ?_⟩, hrun.counted k, ?_⟩
    · rw [hshare]
      exact hrun'.told k
    · rw [hshare]
      exact hrun'.counted k

theorem independent_order_of_resets :
    let c := (Circuit.ofSize 2 1).appendAll [.gateOn .h ⟨0⟩]
    let is : List Instruction :=
      [.reset ⟨0⟩, .gateOn .x ⟨1⟩, .measure ⟨5⟩ ⟨0⟩, .reset ⟨0⟩, .reset ⟨1⟩]
    let js : List Instruction :=
      [.gateOn .x ⟨1⟩, .reset ⟨0⟩, .reset ⟨0⟩, .measure ⟨5⟩ ⟨0⟩, .reset ⟨1⟩]
    let plan : CleanupPlan fun _ : Empty => Unit := {}
    let o := plan.build.1.run (c.appendAll is) .empty
    let o' := plan.build.1.run (c.appendAll js) .empty
    c.Reachable ∧ Swaps Instruction.Apart is js ∧ c.appendAll is ≠ c.appendAll js ∧
      (c.answers is).map (·.2) = [none, none, some (.qubitNotFound ⟨5⟩ none), none, none] ∧
      Swaps (fun a b => a.1.Apart b.1) (c.answers is) (c.answers js) ∧
      (c.appendAll is).Alike (c.appendAll js) ∧ o.circuit.Alike o'.circuit ∧
      ((c.appendAll is).depth = 3 ∧ (c.appendAll is).opCount = 5 ∧ (c.appendAll is).countNamed "reset" = 3) ∧
      ((c.appendAll js).depth = 3 ∧ (c.appendAll js).opCount = 5 ∧ (c.appendAll js).countNamed "reset" = 3) ∧
      o.circuit.opsOn (.qubit ⟨1⟩) = .ok [.gateOn .x ⟨1⟩] ∧
      (o.circuit.depth = 1 ∧ o.circuit.opCount = 2) ∧ (o'.circuit.depth = 1 ∧ o'.circuit.opCount = 2) ∧
      CleanupPass.merge.counter o.properties.stats = 1 ∧
      CleanupPass.merge.counter o'.properties.stats = 1 := by
  intro c is js plan o o'
  have hreach : c.Reachable := (Circuit.reachable_ofSize 2 1).appendAll _
  have hswaps : Swaps Instruction.Apart is js := by
    have hfirst : Swap Instruction.Apart is
        [.gateOn .x ⟨1⟩, .reset ⟨0⟩, .measure ⟨5⟩ ⟨0⟩, .reset ⟨0⟩, .reset ⟨1⟩] :=
      .mk [] _ (by simp [Instruction.Apart, Instruction.wires, Instruction.reset,
        Instruction.gateOn, Instruction.gate])
    have hsecond : Swap Instruction.Apart
        [.gateOn .x ⟨1⟩, .reset ⟨0⟩, .measure ⟨5⟩ ⟨0⟩, .reset ⟨0⟩, .reset ⟨1⟩] js :=
      .mk [_, _] _ (by simp [Instruction.Apart, Instruction.wires, Instruction.reset,
        Instruction.measure])
    exact .tail (.single hfirst) hsecond
  obtain ⟨hanswers, halike, -, -, hcleaned, hcount⟩ :=
    independent_order_is_irrelevant hreach hswaps plan rfl rfl .empty .empty
  obtain ⟨m, -, hm, hm'⟩ := hcount .merge
  have hbuilt : (c.appendAll is).depth = 3 ∧ (c.appendAll is).opCount = 5 ∧
      (c.appendAll is).countNamed "reset" = 3 := by decide +kernel
  have hleft : o.circuit.depth = 1 ∧ o.circuit.opCount = 2 := by decide +kernel
  have hone : CleanupPass.merge.counter o.properties.stats = 1 := by decide +kernel
  refine ⟨hreach, hswaps, by decide +kernel, by decide +kernel, hanswers, halike, hcleaned, hbuilt, ?_,
    by decide +kernel, hleft, ?_, hone, ?_⟩
  · rw [← halike.depth, ← halike.opCount, ← halike.countNamed]
    exact hbuilt
  · rw [← hcleaned.depth, ← hcleaned.opCount]
    exact hleft
  · exact hm'.wraps.trans (hm.wraps.symm.trans hone)

end

end QuantumCircuit
