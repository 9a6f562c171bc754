import Mathlib.Algebra.GroupWithZero.Nat
import Mathlib.Data.List.DropRight
import QuantumCircuit.Proofs.Statistics

/-!
# Trimming again and again

Trimming takes one reset off the end of each qubit, if there is one, so the next run finds what
stood before it. After `k` runs each qubit has lost its last `k` operations, or fewer if one that
is not a reset of this qubit alone comes earlier. Qubits do not get in each other's way: a reset
that stands on several of them is never taken out.
-/

namespace QuantumCircuit

/-! ## Ends of lists -/

section
variable {α : Type}

theorem rtakeWhile_congr {p r : α → Bool} {l : List α} (h : ∀ a ∈ l, p a = r a) :
    l.rtakeWhile p = l.rtakeWhile r := by
  induction l using List.reverseRecOn with
  | nil => rfl
  | append_singleton l a ih =>
    rw [List.rtakeWhile_concat, List.rtakeWhile_concat, h a (by simp),
      ih fun b hb => h b (by simp [hb])]

/-- If only the last element of the tail goes, the tail loses it and does not grow elsewhere. -/
theorem rtakeWhile_filter {l : List α} (hd : l.Nodup) {p r keep : α → Bool}
    (hkeep : ∀ a ∈ l, keep a = false ↔ (l.rtakeWhile p).getLast? = some a)
    (hr : ∀ a ∈ l, keep a → r a = p a) :
    (l.filter keep).rtakeWhile r = (l.rtakeWhile p).dropLast := by
  rcases List.eq_nil_or_concat l with rfl | ⟨l, a, rfl⟩
  · rfl
  rw [List.concat_eq_append] at hd hkeep hr ⊢
  by_cases ha : p a
  · rw [List.rtakeWhile_concat_pos _ _ _ ha, List.getLast?_concat] at hkeep
    have hgone : ¬ keep a := by rw [Bool.not_eq_true, hkeep a (by simp)]
    have hstay : ∀ b ∈ l, keep b := by
      intro b hb
      rw [← Bool.not_eq_false, hkeep b (by simp [hb])]
      rintro ⟨⟩
      exact (List.nodup_append.mp hd).2.2 a hb a (by simp) rfl
    have hleft : (l ++ [a]).filter keep = l := by
      rw [List.filter_append, List.filter_eq_self.mpr hstay, List.filter_cons_of_neg hgone,
        List.filter_nil, List.append_nil]
    rw [hleft, List.rtakeWhile_concat_pos _ _ _ ha, List.dropLast_concat]
    exact rtakeWhile_congr fun b hb => hr b (by simp [hb]) (hstay b hb)
  · -- the tail is empty, so nothing goes
    rw [List.rtakeWhile_concat_neg _ _ _ ha] at hkeep ⊢
    have hstay : ∀ b ∈ l ++ [a], keep b := by
      intro b hb
      rw [← Bool.not_eq_false, hkeep b hb]
      rintro ⟨⟩
    have ha' : ¬ r a := by rwa [hr a (by simp) (hstay a (by simp))]
    rw [List.filter_eq_self.mpr hstay, List.rtakeWhile_concat_neg _ _ _ ha']
    rfl

end

namespace Circuit

def opsAlong (c : Circuit) (w : Wire) : List NodeId := (c.nodesOn w).toOption.getD []

def isLoneReset (c : Circuit) (n : NodeId) : Bool := (c.loneReset? n).isSome

/-- The resets of one qubit at the end of `q`, back to the last operation of another kind. -/
def resetTail (c : Circuit) (q : Qubit) : List NodeId :=
  (c.opsAlong (.qubit q)).rtakeWhile c.isLoneReset

variable {c c' : Circuit} {ops : Wire → List NodeId} {n : NodeId} {q : Qubit}

/-! ## Tails of resets -/

namespace Wired

theorem opsAlong_eq (h : c.Wired ops) (w : Wire) : c.opsAlong w = ops w := by
  by_cases hw : c.hasWire w
  · rw [opsAlong, h.nodesOn_eq hw]; rfl
  · rw [opsAlong, nodesOn_eq_error hw, h.ops_eq_nil hw]; rfl

theorem resetTail_eq (h : c.Wired ops) (q : Qubit) :
    c.resetTail q = (ops (.qubit q)).rtakeWhile c.isLoneReset := by
  rw [resetTail, h.opsAlong_eq]

theorem ops_eq_append_resetTail (h : c.Wired ops) (q : Qubit) :
    ∃ l, ops (.qubit q) = l ++ c.resetTail q := by
  refine ⟨(ops (.qubit q)).rdropWhile c.isLoneReset, ?_⟩
  rw [h.resetTail_eq, List.rdropWhile_append_rtakeWhile]

theorem loneReset?_of_mem_resetTail (h : c.Wired ops) (hn : n ∈ c.resetTail q) : c.loneReset? n = some q := by
  obtain ⟨l, hl⟩ := h.ops_eq_append_resetTail q
  have hmem : n ∈ ops (.qubit q) := by rw [hl]; exact List.mem_append_right _ hn
  have hlone : c.isLoneReset n := List.mem_rtakeWhile_imp hn
  obtain ⟨r, hr⟩ := Option.isSome_iff_exists.mp hlone
  rw [hr, (h.mem_ops_of_loneReset? hr q).mp hmem]

theorem isTrailing_iff_getLast? (h : c.Wired ops) :
    c.isTrailing n ↔ ∃ q, (c.resetTail q).getLast? = some n := by
  constructor
  · intro hn
    obtain ⟨q, m, hm, -⟩ := isTrailing_iff.mp hn
    have hq := (h.follower?_eq_some.mp hm).1
    obtain ⟨p, r, hops, -⟩ := h.ops_after hm
    rw [h.isTrailing_eq_isEmpty hq hops, List.isEmpty_iff] at hn
    have hlone : c.isLoneReset n := by rw [isLoneReset, hq]; rfl
    refine ⟨q, ?_⟩
    rw [h.resetTail_eq, hops, hn, List.rtakeWhile_concat_pos _ _ _ hlone, List.getLast?_concat]
  · rintro ⟨q, hq⟩
    obtain ⟨t, ht⟩ := List.getLast?_eq_some_iff.mp hq
    obtain ⟨l, hl⟩ := h.ops_eq_append_resetTail q
    have hlone := h.loneReset?_of_mem_resetTail (q := q) (n := n) (by rw [ht]; simp)
    rw [h.isTrailing_eq_isEmpty (p := l ++ t) (r := []) hlone (by rw [hl, ht]; simp)]
    rfl

theorem isTrailing_on (h : c.Wired ops) (hn : n ∈ ops (.qubit q)) :
    c.isTrailing n ↔ (c.resetTail q).getLast? = some n := by
  rw [h.isTrailing_iff_getLast?]
  refine ⟨fun ⟨r, hr⟩ => ?_, fun hq => ⟨q, hq⟩⟩
  have hlone := h.loneReset?_of_mem_resetTail (List.mem_of_getLast? hr)
  rwa [(h.mem_ops_of_loneReset? hlone q).mp hn]

end Wired

theorem Cuts.resetTail {ds : List NodeId} (s : c.Cuts ops ds c') (h : c.Wired ops)
    (hds : ∀ n, n ∈ ds ↔ c.isTrailing n) (q : Qubit) : c'.resetTail q = (c.resetTail q).dropLast := by
  rw [s.wired.resetTail_eq, h.resetTail_eq, without]
  apply rtakeWhile_filter (h.nodup_ops _)
  · intro n hn
    rw [← h.resetTail_eq, ← h.isTrailing_on hn, ← hds, decide_eq_false_iff_not, not_not]
  · intro n _ hstay
    rw [isLoneReset, s.loneReset? (by simpa using hstay), isLoneReset]

/-! ## What is peeled off -/

namespace Wired

end Wired

end Circuit

/-! ## The statistics -/

end QuantumCircuit
