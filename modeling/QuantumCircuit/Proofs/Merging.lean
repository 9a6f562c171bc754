import QuantumCircuit.Proofs.Cleanup

/-!
# Merging resets

Merging goes through the resets by node number while it takes some of them out. Numbers may
have been freed and given out again, so they need not ascend along a wire; still the resets that
go are those that were superseded at the start, in whatever order they are gone through. Of
resets of one qubit in a row only the last can stay, and it stays unless a reset comes next.
-/

namespace QuantumCircuit

namespace Circuit

variable {c : Circuit} {ops : Wire → List NodeId} {n : NodeId}

theorem Wired.ops_eq_of_nodesOn (h : c.Wired ops) {w : Wire} {l : List NodeId}
    (hl : c.nodesOn w = .ok l) : ops w = l := by
  rw [h.nodesOn_eq (hasWire_of_nodesOn hl)] at hl
  exact Except.ok.inj hl

theorem Wired.isSuperseded_of_row (h : c.Wired ops) {q : Qubit} {p row r : List NodeId} {z : NodeId}
    (hops : ops (.qubit q) = p ++ (row ++ z :: r))
    (hrow : ∀ n ∈ row ++ [z], c.loneReset? n = some q) (hn : n ∈ row) : c.isSuperseded n := by
  obtain ⟨s, t, rfl⟩ := List.append_of_mem hn
  have hsplit : ops (.qubit q) = (p ++ s) ++ n :: (t ++ z :: r) := by rw [hops]; simp
  obtain ⟨m, hm, hhead⟩ : ∃ m, c.loneReset? m = some q ∧ (t ++ z :: r).head? = some m := by
    cases t with
    | nil => exact ⟨z, hrow z (by simp), rfl⟩
    | cons m t => exact ⟨m, hrow m (by simp), rfl⟩
  rw [h.isSuperseded_eq_head (hrow n (by simp)) hsplit, hhead]
  exact isResetAt_of_loneReset? hm

theorem Wired.mergeResetsAt_cuts (h : c.Wired ops) {ns : List NodeId}
    (hns : ns.Perm (c.opsWhere (·.isReset))) :
    ∃ ds, (∀ n, n ∈ ds ↔ c.isSuperseded n) ∧ c.Cuts ops ds (c.mergeResetsAt ns).circuit := by
  obtain ⟨-, ds, hds, -, hdrops⟩ := h.mergeResetsAt_perm hns
  exact ⟨ds, hds, (hdrops.imp isIdle_of_isSuperseded).cuts isSome_of_isIdle h⟩

end Circuit

section
variable {κ : Type} [DecidableEq κ] {V : κ → Type}

/-- **Merging deletes the resets that were superseded at the start**, whatever the numbers of the
nodes. All others stay as they are and keep their order on every wire. Of lone resets in a row
all but the last go, and the last goes if a reset comes next. Going through the resets in
another order takes out the same. -/
theorem merging_deletes_superseded_resets {c : Circuit} (hc : c.Reachable) (p : Properties V) :
    let o := Pass.mergeResets.run c p
    o.result = .ok () ∧
      (∀ n, o.circuit.node? n = if c.isSuperseded n then none else c.node? n) ∧
      (∀ w, o.circuit.input? w = c.input? w ∧ o.circuit.output? w = c.output? w) ∧
      (∀ w, o.circuit.nodesOn w = (c.nodesOn w).map (List.filter fun n => !c.isSuperseded n)) ∧
      (∀ q before row last after, c.nodesOn (.qubit q) = .ok (before ++ (row ++ last :: after)) →
        (∀ n ∈ row ++ [last], c.loneReset? n = some q) →
        (∀ n ∈ row, o.circuit.node? n = none) ∧
          (o.circuit.node? last = none ↔ ∃ m, after.head? = some m ∧ c.isResetAt m)) ∧
      (∀ ns, ns.Perm (c.opsWhere (·.isReset)) →
        (c.mergeResetsAt ns).result = .ok () ∧
          (∀ n, (c.mergeResetsAt ns).circuit.node? n = o.circuit.node? n) ∧
          (∀ w, (c.mergeResetsAt ns).circuit.nodesOn w = o.circuit.nodesOn w)) := by
  intro o
  obtain ⟨ops, h⟩ := hc.wired
  obtain ⟨hok, hcirc⟩ : _ ∧ o.circuit = c.mergeResets.circuit := h.run_mergeResets p
  obtain ⟨ds, hds, s⟩ := h.mergeResets_cuts
  have hnode : ∀ n, o.circuit.node? n = if c.isSuperseded n then none else c.node? n := by
    intro n
    rw [hcirc, s.node?]
    simp only [hds]
  have hon : ∀ w, o.circuit.nodesOn w =
      (c.nodesOn w).map (List.filter fun n => !c.isSuperseded n) := by
    intro w
    rw [hcirc, s.nodesOn_filter h hds]
  refine ⟨hok, hnode, fun w => hcirc ▸ ⟨s.input? w, s.output? w⟩, hon, ?_, ?_⟩
  · intro q before row last after hnodes hrow
    have hops := h.ops_eq_of_nodesOn hnodes
    have hlast := hrow last (by simp)
    obtain ⟨i, hi, -⟩ := Circuit.loneReset?_eq_some.mp hlast
    refine ⟨fun n hn => ?_, ?_⟩
    · rw [hnode, if_pos (h.isSuperseded_of_row hops hrow hn)]
    · have hhead := h.isSuperseded_eq_head (p := before ++ row) hlast (by simpa using hops)
      rw [hnode, hhead, Circuit.instruction?_eq_some.mp hi]
      simp [Option.any_eq_true]
  · intro ns hns
    obtain ⟨es, hes, s'⟩ := h.mergeResetsAt_cuts hns
    refine ⟨(h.mergeResetsAt_perm hns).1, fun n => ?_, fun w => ?_⟩
    · rw [hnode, s'.node?]
      simp only [hes]
    · rw [hon, s'.nodesOn_filter h hes]

/-- The last reset on the wire has the number of an operation that was taken out before. -/
def shuffledResets : Circuit :=
  ((((Circuit.ofSize 2 0).appendAll [.gateOn .x ⟨0⟩, .reset ⟨0⟩, .reset ⟨0⟩]).remove 4).2.append
    (.reset ⟨0⟩)).2

theorem merging_of_shuffledResets :
    let o := Pass.mergeResets.run shuffledResets (.empty : Properties fun _ : Empty => Unit)
    shuffledResets.Reachable ∧ shuffledResets.nodesOn (.qubit ⟨0⟩) = .ok [5, 6, 4] ∧
      o.result = .ok () ∧ o.circuit.nodesOn (.qubit ⟨0⟩) = .ok [4] ∧ o.circuit.node? 6 = none ∧
      (shuffledResets.mergeResetsAt [6, 4, 5]).circuit.nodesOn (.qubit ⟨0⟩) = .ok [4] := by
  intro o
  have hreach : shuffledResets.Reachable :=
    (((Circuit.reachable_ofSize 2 0).appendAll _).tail (.remove _ 4)).tail (.append _ _)
  obtain ⟨hok, -, -, hon, hrow, horder⟩ :=
    merging_deletes_superseded_resets hreach (.empty : Properties fun _ : Empty => Unit)
  have hnodes : shuffledResets.nodesOn (.qubit ⟨0⟩) = .ok [5, 6, 4] := by decide +kernel
  have hafter : o.circuit.nodesOn (.qubit ⟨0⟩) = .ok [4] := by
    rw [hon, hnodes]
    decide +kernel
  have hall : ∀ n ∈ [5, 6, 4], shuffledResets.loneReset? n = some ⟨0⟩ := by decide +kernel
  obtain ⟨hgone, -⟩ := hrow ⟨0⟩ [] [5, 6] 4 [] hnodes hall
  obtain ⟨-, -, hsame⟩ := horder [6, 4, 5] (by decide +kernel)
  exact ⟨hreach, hnodes, hok, hafter, hgone 6 (by simp), (hsame _).trans hafter⟩

end

end QuantumCircuit
