import QuantumCircuit.Pipeline
import QuantumCircuit.Proofs.Counts
import QuantumCircuit.Proofs.Reachable

/-!
# Which resets the cleanup takes out

A reset of one qubit is superseded if a reset follows it on that qubit, and trailing if
nothing does. A sweep decides by the circuit at hand while it takes operations out, yet what
it takes out are the resets that were superseded, or trailing, when it began. On any circuit
at all the passes change it by edits only.
-/

namespace QuantumCircuit.Circuit

/-- The qubit that the operation at `n` resets, if it resets just one. -/
def loneReset? (c : Circuit) (n : NodeId) : Option Qubit :=
  match c.instruction? n with
  | some ⟨.reset, [q], _⟩ => some q
  | _ => none

def follower? (c : Circuit) (n : NodeId) : Option (Qubit × NodeId) :=
  (c.loneReset? n).bind fun q => (c.next n (.qubit q)).toOption.map (q, ·)

def isSuperseded (c : Circuit) (n : NodeId) : Bool := (c.follower? n).any fun p => c.isResetAt p.2

def isTrailing (c : Circuit) (n : NodeId) : Bool :=
  (c.follower? n).any fun p => c.output? (.qubit p.1) == some p.2

def trailing? (c : Circuit) (q : Qubit) : Option NodeId :=
  (c.output? (.qubit q)).bind fun o =>
    (c.prev o (.qubit q)).toOption.filter fun n => c.loneReset? n = some q

variable {c c' : Circuit} {ops : Wire → List NodeId} {n : NodeId} {i : Instruction}

theorem loneReset?_eq_some {q : Qubit} :
    c.loneReset? n = some q ↔ ∃ i, c.instruction? n = some i ∧ i.isReset ∧ i.qubits = [q] := by
  unfold loneReset?
  constructor
  · intro h
    split at h
    · rename_i r bs hi
      cases h
      exact ⟨_, hi, rfl, rfl⟩
    · cases h
  · rintro ⟨⟨o, qs, bs⟩, hi, hr, rfl⟩
    have : o = .reset := by simpa [Instruction.isReset] using hr
    subst this
    rw [hi]

theorem loneReset?_congr (h : c'.instruction? n = c.instruction? n) :
    c'.loneReset? n = c.loneReset? n := by
  unfold loneReset?
  rw [h]

theorem isSuperseded_iff :
    c.isSuperseded n ↔ ∃ q m, c.follower? n = some (q, m) ∧ c.isResetAt m := by
  simp [isSuperseded, Option.any_eq_true]

theorem isTrailing_iff :
    c.isTrailing n ↔ ∃ q m, c.follower? n = some (q, m) ∧ c.output? (.qubit q) = some m := by
  simp [isTrailing, Option.any_eq_true]

theorem isResetAt_eq_any (c : Circuit) (n : NodeId) :
    c.isResetAt n = (c.instruction? n).any (·.isReset) := by
  unfold isResetAt instruction?
  cases c.node? n <;> rfl

theorem isResetAt_eq (hi : c.instruction? n = some i) : c.isResetAt n = i.isReset := by
  rw [isResetAt_eq_any, hi]; rfl

theorem isResetAt_of_loneReset? {q : Qubit} (h : c.loneReset? n = some q) : c.isResetAt n := by
  obtain ⟨i, hi, hr, -⟩ := loneReset?_eq_some.mp h
  rwa [isResetAt_eq hi]

theorem qubit_mem_wires {q : Qubit} : .qubit q ∈ i.wires ↔ q ∈ i.qubits := by
  simp [Instruction.wires]

theorem clbit_mem_wires {b : Clbit} : .clbit b ∈ i.wires ↔ b ∈ i.clbits := by
  simp [Instruction.wires]

namespace Wired

theorem mem_ops_of_loneReset? (h : c.Wired ops) {q : Qubit} (hq : c.loneReset? n = some q) (r : Qubit) :
    n ∈ ops (.qubit r) ↔ r = q := by
  obtain ⟨i, hi, -, hqs⟩ := loneReset?_eq_some.mp hq
  rw [h.mem_ops]
  constructor
  · rintro ⟨j, hj, hr⟩
    obtain rfl : i = j := Option.some.inj (hi.symm.trans hj)
    simpa [qubit_mem_wires, hqs] using hr
  · rintro rfl
    exact ⟨i, hi, by simp [qubit_mem_wires, hqs]⟩

theorem follower?_eq_some (h : c.Wired ops) {q : Qubit} {m : NodeId} :
    c.follower? n = some (q, m) ↔
      c.loneReset? n = some q ∧ ∃ p r, c.track ops (.qubit q) = p ++ n :: m :: r := by
  unfold follower?
  rw [Option.bind_eq_some_iff]
  constructor
  · rintro ⟨q', hq, hm⟩
    cases hnext : c.next n (.qubit q') with
    | error e => simp [hnext, Except.toOption] at hm
    | ok k =>
      simp only [hnext, Except.toOption, Option.map_some, Option.some.injEq, Prod.mk.injEq] at hm
      obtain ⟨rfl, rfl⟩ := hm
      exact ⟨hq, h.next_eq_ok.mp hnext⟩
  · rintro ⟨hq, p, r, hp⟩
    exact ⟨q, hq, by simp [h.next_eq_ok.mpr ⟨p, r, hp⟩, Except.toOption]⟩

theorem exists_follower (h : c.Wired ops) {q : Qubit} (hq : c.loneReset? n = some q) :
    ∃ m, c.follower? n = some (q, m) := by
  obtain ⟨p, a, b, r, hp⟩ := h.exists_between ((h.mem_ops_of_loneReset? hq q).mpr rfl)
  exact ⟨b, h.follower?_eq_some.mpr ⟨hq, p ++ [a], r, by simpa using hp⟩⟩

theorem follower?_ne (h : c.Wired ops) {q : Qubit} {m : NodeId} (hf : c.follower? n = some (q, m)) :
    m ≠ n := by
  obtain ⟨-, p, r, hp⟩ := h.follower?_eq_some.mp hf
  have hd := h.nodup_track (.qubit q)
  rw [hp, List.nodup_append, List.nodup_cons] at hd
  rintro rfl
  exact hd.2.1.1 (by simp)

theorem follower?_of_ops (h : c.Wired ops) {q : Qubit} (hq : c.loneReset? n = some q)
    {p r : List NodeId} (hops : ops (.qubit q) = p ++ n :: r) :
    ∃ k, c.follower? n = some (q, k) ∧
      (r = [] ∧ c.output? (.qubit q) = some k ∨ ∃ t, r = k :: t) := by
  have hmem : n ∈ ops (.qubit q) := by rw [hops]; simp
  obtain ⟨i, o, -, ho, ht⟩ := h.ends (h.hasWire_of_mem_ops hmem)
  rw [hops] at ht
  cases r with
  | nil => exact ⟨o, h.follower?_eq_some.mpr ⟨hq, i :: p, [], by simpa using ht⟩, .inl ⟨rfl, ho⟩⟩
  | cons k t => exact ⟨k, h.follower?_eq_some.mpr ⟨hq, i :: p, t ++ [o], by simpa using ht⟩, .inr ⟨t, rfl⟩⟩

theorem ops_after (h : c.Wired ops) {q : Qubit} {k : NodeId} (hf : c.follower? n = some (q, k)) :
    ∃ p r, ops (.qubit q) = p ++ n :: r ∧
      (r = [] ∧ c.output? (.qubit q) = some k ∨ ∃ t, r = k :: t) := by
  have hq := (h.follower?_eq_some.mp hf).1
  obtain ⟨p, r, hops⟩ := List.append_of_mem ((h.mem_ops_of_loneReset? hq q).mpr rfl)
  obtain ⟨m, hm, hr⟩ := h.follower?_of_ops hq hops
  obtain rfl : m = k := by simpa [hf] using hm.symm
  exact ⟨p, r, hops, hr⟩

end Wired

/-! ## Followers after a removal -/

namespace Cuts

variable {ds : List NodeId}

theorem isResetAt (s : c.Cuts ops ds c') {m : NodeId} (hm : m ∉ ds) :
    c'.isResetAt m = c.isResetAt m := by
  unfold Circuit.isResetAt
  rw [s.node?, if_neg hm]

theorem loneReset? (s : c.Cuts ops ds c') {m : NodeId} (hm : m ∉ ds) :
    c'.loneReset? m = c.loneReset? m :=
  loneReset?_congr (by rw [s.instruction?, if_neg hm])

theorem follower? (s : c.Cuts ops ds c') (h : c.Wired ops) {q : Qubit} {m : NodeId}
    (hn : n ∉ ds) (hm : m ∉ ds) (hf : c.follower? n = some (q, m)) : c'.follower? n = some (q, m) := by
  obtain ⟨hq, p, r, hp⟩ := h.follower?_eq_some.mp hf
  refine s.wired.follower?_eq_some.mpr ⟨(s.loneReset? hn).trans hq, p.filter (· ∉ ds),
    r.filter (· ∉ ds), ?_⟩
  rw [s.track, hp, List.filter_append, List.filter_cons_of_pos (by simpa using hn),
    List.filter_cons_of_pos (by simpa using hm)]

theorem follower?_past (s : c.Cuts ops [n] c') (h : c.Wired ops) {q r : Qubit} {k m : NodeId}
    (hk : k ≠ n) (hf : c.follower? k = some (q, n)) (hn : c.follower? n = some (r, m)) :
    c'.follower? k = some (q, m) := by
  obtain ⟨hq, p, t, hp⟩ := h.follower?_eq_some.mp hf
  obtain ⟨hr, p', t', hp'⟩ := h.follower?_eq_some.mp hn
  obtain ⟨i, hi, -⟩ := loneReset?_eq_some.mp hr
  have hmem : n ∈ ops (.qubit q) := by
    rw [← h.mem_track_iff hi, hp]; simp
  obtain rfl : q = r := (h.mem_ops_of_loneReset? hr q).mp hmem
  have heq : (p ++ [k]) ++ n :: t = p' ++ n :: m :: t' := by
    rw [← hp']; simpa using hp.symm
  obtain ⟨-, rfl⟩ := split_unique (by rw [heq, ← hp']; exact h.nodup_track _) heq
  have hmn : m ≠ n := h.follower?_ne hn
  refine s.wired.follower?_eq_some.mpr ⟨(s.loneReset? (by simpa using hk)).trans hq,
    p.filter (· ∉ [n]), t'.filter (· ∉ [n]), ?_⟩
  rw [s.track, hp, List.filter_append]
  simp [hk, hmn]

theorem isSuperseded (s : c.Cuts ops [n] c') (h : c.Wired ops) (hn : c.isSuperseded n)
    {k : NodeId} (hk : k ≠ n) : c'.isSuperseded k = c.isSuperseded k := by
  have hk' : k ∉ [n] := by simpa using hk
  cases hq : c.loneReset? k with
  | none =>
    have hq' : c'.loneReset? k = none := (s.loneReset? hk').trans hq
    simp [Circuit.isSuperseded, Circuit.follower?, hq, hq']
  | some q =>
    obtain ⟨m, hm⟩ := h.exists_follower hq
    by_cases hmn : m = n
    · -- the reset that followed `k` is gone, but a reset followed it in turn
      subst hmn
      obtain ⟨r, j, hj, hreset⟩ := isSuperseded_iff.mp hn
      have hm' := s.follower?_past h hk hm hj
      have hjm : j ∉ [m] := by simpa using h.follower?_ne hj
      have hmr := isResetAt_of_loneReset? (h.follower?_eq_some.mp hj).1
      simp [Circuit.isSuperseded, hm, hm', s.isResetAt hjm, hreset, hmr]
    · have hmn' : m ∉ [n] := by simpa using hmn
      have hm' := s.follower? h hk' hmn' hm
      simp [Circuit.isSuperseded, hm, hm', s.isResetAt hmn']

end Cuts

/-! ## Merging -/

theorem isSuperseded_eq {q : Qubit} {m : NodeId} (h : c.follower? n = some (q, m)) :
    c.isSuperseded n = c.isResetAt m := by
  simp [isSuperseded, h]

theorem isTrailing_eq {q : Qubit} {m : NodeId} (h : c.follower? n = some (q, m)) :
    c.isTrailing n = (c.output? (.qubit q) == some m) := by
  simp [isTrailing, h]

theorem Wired.isSuperseded_eq_head (h : c.Wired ops) {q : Qubit} (hq : c.loneReset? n = some q)
    {p r : List NodeId} (hops : ops (.qubit q) = p ++ n :: r) :
    c.isSuperseded n = r.head?.any c.isResetAt := by
  obtain ⟨k, hf, hr⟩ := h.follower?_of_ops hq hops
  rw [isSuperseded_eq hf]
  rcases hr with ⟨rfl, ho⟩ | ⟨t, rfl⟩
  · rw [isResetAt, (h.output_iff _ k).mp ho]
    rfl
  · rfl

theorem Wired.isTrailing_eq_isEmpty (h : c.Wired ops) {q : Qubit} (hq : c.loneReset? n = some q)
    {p r : List NodeId} (hops : ops (.qubit q) = p ++ n :: r) : c.isTrailing n = r.isEmpty := by
  obtain ⟨k, hf, hr⟩ := h.follower?_of_ops hq hops
  rw [isTrailing_eq hf]
  rcases hr with ⟨rfl, ho⟩ | ⟨t, rfl⟩
  · simp [ho]
  · obtain ⟨i, hi, -⟩ := (h.mem_ops (.qubit q) k).mp (by rw [hops]; simp)
    have hout : c.output? (.qubit q) ≠ some k := by
      intro ho
      have hnode := instruction?_eq_some.mp hi
      rw [(h.output_iff _ k).mp ho] at hnode
      cases hnode
    simpa using hout

theorem Wired.next_of_follower? (h : c.Wired ops) {q : Qubit} {m : NodeId}
    (hf : c.follower? n = some (q, m)) : c.next n (.qubit q) = .ok m := by
  obtain ⟨-, p, r, hp⟩ := h.follower?_eq_some.mp hf
  exact h.next_eq_ok.mpr ⟨p, r, hp⟩

theorem Wired.mergeResetsAt_cons_of_superseded (h : c.Wired ops) (hn : c.isSuperseded n)
    (rest : List NodeId) : ∃ e,
      c.mergeResetsAt (n :: rest) = ((c.remove n).2.mergeResetsAt rest).counting e := by
  obtain ⟨q, m, hm, hreset⟩ := isSuperseded_iff.mp hn
  obtain ⟨i, hi, -, hq⟩ := loneReset?_eq_some.mp (h.follower?_eq_some.mp hm).1
  obtain ⟨c', heq, -⟩ := h.remove_spec hi
  refine ⟨.removedDuplicate (.qubit q), ?_⟩
  rw [mergeResetsAt, hi]
  simp only [hq, h.next_of_follower? hm, if_pos hreset, heq]

theorem Wired.mergeResetsAt_cons_of_not (h : c.Wired ops) (hi : c.instruction? n = some i)
    (hr : i.isReset) (hn : ¬ c.isSuperseded n) (rest : List NodeId) :
    c.mergeResetsAt (n :: rest) = c.mergeResetsAt rest ∨
      ∃ e, c.mergeResetsAt (n :: rest) = (c.mergeResetsAt rest).noting e := by
  rw [mergeResetsAt, hi]
  by_cases hone : ∃ q, i.qubits = [q]
  · obtain ⟨q, hq⟩ := hone
    obtain ⟨m, hm⟩ := h.exists_follower (loneReset?_eq_some.mpr ⟨i, hi, hr, hq⟩)
    rw [isSuperseded_eq hm] at hn
    left
    simp only [hq, h.next_of_follower? hm, if_neg hn]
  · right
    refine ⟨.keptWide n i.qubits.length, ?_⟩
    dsimp only
    split
    · rename_i q hq
      exact absurd ⟨q, hq⟩ hone
    · rfl

/-- The sweep takes out the listed resets that were superseded before it. -/
theorem Wired.mergeResetsAt_spec : ∀ (ns : List NodeId) {c : Circuit} {ops : Wire → List NodeId},
    c.Wired ops → ns.Nodup → (∀ n ∈ ns, ∃ i, c.instruction? n = some i ∧ i.isReset) →
    (c.mergeResetsAt ns).result = .ok () ∧
      (c.mergeResetsAt ns).removed = (ns.filter c.isSuperseded).length ∧
      Drops (fun c n => c.isSuperseded n) c (ns.filter c.isSuperseded) (c.mergeResetsAt ns).circuit
  | [], c, ops, _, _, _ => ⟨rfl, rfl, .nil c⟩
  | n :: rest, c, ops, h, hd, hns => by
    obtain ⟨i, hi, hr⟩ := hns n (by simp)
    rw [List.nodup_cons] at hd
    by_cases hsup : c.isSuperseded n
    · obtain ⟨c', heq, s⟩ := h.remove_spec hi
      obtain ⟨e, hstep⟩ := h.mergeResetsAt_cons_of_superseded hsup rest
      have hrest : ∀ m ∈ rest, m ≠ n := fun m hm e => hd.1 (e ▸ hm)
      -- for the resets still to come nothing has changed
      have hfilter : rest.filter c.isSuperseded = rest.filter c'.isSuperseded := by
        apply List.filter_congr
        intro k hk
        exact (s.isSuperseded h hsup (hrest k hk)).symm
      have ih := mergeResetsAt_spec rest s.wired hd.2 (by
        intro k hk
        rw [s.instruction?, if_neg (by simpa using hrest k hk)]
        exact hns k (by simp [hk]))
      rw [hstep, List.filter_cons_of_pos hsup, heq, hfilter]
      refine ⟨ih.1, congrArg (· + 1) ih.2.1, .cons hsup ?_⟩
      rw [heq]
      exact ih.2.2
    · have ih := mergeResetsAt_spec rest h hd.2 fun m hm => hns m (by simp [hm])
      rw [List.filter_cons_of_neg hsup]
      rcases h.mergeResetsAt_cons_of_not hi hr hsup rest with hstep | ⟨e, hstep⟩
      · rw [hstep]; exact ih
      · rw [hstep]; exact ih

theorem Wired.mergeResetsAt_perm (h : c.Wired ops) {ns : List NodeId}
    (hns : ns.Perm (c.opsWhere (·.isReset))) :
    (c.mergeResetsAt ns).result = .ok () ∧ ∃ ds, (∀ n, n ∈ ds ↔ c.isSuperseded n) ∧
      ds.length = (c.mergeResetsAt ns).removed ∧
      Drops (fun c n => c.isSuperseded n) c ds (c.mergeResetsAt ns).circuit := by
  obtain ⟨hok, hremoved, hdrops⟩ := h.mergeResetsAt_spec ns (hns.nodup_iff.mpr (c.nodup_opsWhere _))
    fun n hn => mem_opsWhere.mp (hns.mem_iff.mp hn)
  refine ⟨hok, _, ?_, hremoved.symm, hdrops⟩
  intro n
  rw [List.mem_filter, hns.mem_iff, mem_opsWhere, and_iff_right_iff_imp]
  intro hn
  obtain ⟨q, m, hm, -⟩ := isSuperseded_iff.mp hn
  obtain ⟨i, hi, hr, -⟩ := loneReset?_eq_some.mp (h.follower?_eq_some.mp hm).1
  exact ⟨i, hi, hr⟩

theorem Wired.mergeResets_spec (h : c.Wired ops) :
    c.mergeResets.result = .ok () ∧ ∃ ds, (∀ n, n ∈ ds ↔ c.isSuperseded n) ∧
      ds.length = c.mergeResets.removed ∧
      Drops (fun c n => c.isSuperseded n) c ds c.mergeResets.circuit :=
  h.mergeResetsAt_perm (.refl _)

/-! ## Trimming -/

theorem Wired.prev_eq_of_last (h : c.Wired ops) {w : Wire} {p : List NodeId} {a o : NodeId}
    (hp : c.track ops w = p ++ [a, o]) : c.prev o w = .ok a :=
  h.neighbour_of_edge .backward (h.mem_edges_of_track hp)

theorem Wired.trailing?_eq (h : c.Wired ops) {q : Qubit} {p : List NodeId} {a o : NodeId}
    (ho : c.output? (.qubit q) = some o) (hp : c.track ops (.qubit q) = p ++ [a, o]) :
    c.trailing? q = if c.loneReset? a = some q then some a else none := by
  unfold trailing?
  rw [ho, Option.bind_some, h.prev_eq_of_last hp]
  simp [Except.toOption, Option.filter]

theorem Wired.trailing?_eq_some (h : c.Wired ops) {q : Qubit} :
    c.trailing? q = some n ↔
      ∃ o, c.output? (.qubit q) = some o ∧ c.follower? n = some (q, o) := by
  constructor
  · intro hn
    cases ho : c.output? (.qubit q) with
    | none => simp [trailing?, ho] at hn
    | some o =>
      obtain ⟨p, a, hp⟩ := h.exists_last ho
      rw [h.trailing?_eq ho hp] at hn
      split at hn
      · rename_i hq
        cases hn
        exact ⟨o, rfl, h.follower?_eq_some.mpr ⟨hq, p, [], hp⟩⟩
      · cases hn
  · rintro ⟨o, ho, hf⟩
    obtain ⟨hq, p, r, hp⟩ := h.follower?_eq_some.mp hf
    obtain ⟨p', a, hp'⟩ := h.exists_last ho
    have hsplit : (p ++ [n]) ++ o :: r = (p' ++ [a]) ++ o :: [] := by
      simpa [hp'] using hp.symm
    have hpa := (split_unique (by rw [hsplit]; simpa [hp'] using h.nodup_track (.qubit q)) hsplit).1
    obtain ⟨-, hna⟩ := List.append_inj' hpa rfl
    obtain rfl : n = a := by simpa using hna
    rw [h.trailing?_eq ho hp', if_pos hq]

theorem Wired.isTrailing_iff_trailing? (h : c.Wired ops) :
    c.isTrailing n ↔ ∃ q, c.trailing? q = some n := by
  rw [isTrailing_iff]
  simp only [h.trailing?_eq_some]
  grind

theorem Cuts.trailing? (s : c.Cuts ops [n] c') (h : c.Wired ops) {q r : Qubit}
    (hq : c.loneReset? n = some q) (hr : r ≠ q) : c'.trailing? r = c.trailing? r := by
  obtain ⟨i, hi, -⟩ := loneReset?_eq_some.mp hq
  have hnot : n ∉ c.track ops (.qubit r) := fun hm =>
    hr ((h.mem_ops_of_loneReset? hq r).mp ((h.mem_track_iff hi _).mp hm))
  have hne : ∀ m ∈ c.track ops (.qubit r), m ∉ [n] := by
    intro m hm
    have : m ≠ n := fun e => hnot (e ▸ hm)
    simpa using this
  have htrack : c'.track (without ops [n]) (.qubit r) = c.track ops (.qubit r) := by
    rw [s.track, List.filter_eq_self]
    simpa using hne
  cases ho : c.output? (.qubit r) with
  | none =>
    have ho' := (s.output? (.qubit r)).trans ho
    simp [Circuit.trailing?, ho, ho']
  | some o =>
    obtain ⟨p, a, hp⟩ := h.exists_last ho
    have ha : a ∉ [n] := hne a (by rw [hp]; simp)
    rw [h.trailing?_eq ho hp, s.wired.trailing?_eq ((s.output? _).trans ho) (htrack.trans hp),
      s.loneReset? ha]

theorem Wired.trimResetsAt_cons_of_trailing (h : c.Wired ops) {q : Qubit} {o : NodeId}
    (ho : c.output? (.qubit q) = some o) (hn : c.trailing? q = some n) (rest : List (Wire × NodeId)) :
    ∃ e, c.trimResetsAt ((.qubit q, o) :: rest) = ((c.remove n).2.trimResetsAt rest).counting e := by
  obtain ⟨p, a, hp⟩ := h.exists_last ho
  rw [h.trailing?_eq ho hp] at hn
  split at hn
  · rename_i hlone
    cases hn
    obtain ⟨i, hi, hr, hqs⟩ := loneReset?_eq_some.mp hlone
    obtain ⟨c', heq, -⟩ := h.remove_spec hi
    refine ⟨.removedFinal (.qubit q), ?_⟩
    rw [trimResetsAt, if_pos (show (Wire.qubit q).isQubit = true from rfl), h.prev_eq_of_last hp]
    simp only [hi, hr, hqs, List.length_singleton, if_true, heq]
  · cases hn

theorem Wired.trimResetsAt_cons_of_not (h : c.Wired ops) {q : Qubit} {o : NodeId}
    (ho : c.output? (.qubit q) = some o) (hn : c.trailing? q = none) (rest : List (Wire × NodeId)) :
    c.trimResetsAt ((.qubit q, o) :: rest) = c.trimResetsAt rest ∨
      ∃ e, c.trimResetsAt ((.qubit q, o) :: rest) = (c.trimResetsAt rest).noting e := by
  obtain ⟨p, a, hp⟩ := h.exists_last ho
  have hlone : c.loneReset? a ≠ some q := by
    intro hlone
    rw [h.trailing?_eq ho hp, if_pos hlone] at hn
    cases hn
  rw [trimResetsAt, if_pos (show (Wire.qubit q).isQubit = true from rfl), h.prev_eq_of_last hp]
  dsimp only
  cases hi : c.instruction? a with
  | none => exact .inl rfl
  | some i =>
    by_cases hr : i.isReset
    · -- a reset on `q` that is not of `q` alone
      have hlen : i.qubits.length ≠ 1 := by
        intro hlen
        obtain ⟨r, hqs⟩ := List.length_eq_one_iff.mp hlen
        have ha : a ∈ ops (.qubit q) := by rw [← h.mem_track_iff hi, hp]; simp
        have hr' : c.loneReset? a = some r := loneReset?_eq_some.mpr ⟨i, hi, hr, hqs⟩
        obtain rfl := (h.mem_ops_of_loneReset? hr' q).mp ha
        exact hlone hr'
      right
      refine ⟨.keptWideFinal (.qubit q) i.qubits.length, ?_⟩
      dsimp only
      rw [if_pos hr, if_neg hlen]
    · left
      dsimp only
      rw [if_neg hr]

theorem Wired.trimResetsAt_spec : ∀ (es : List (Wire × NodeId)) {c : Circuit} {ops : Wire → List NodeId},
    c.Wired ops → (es.map (·.1)).Nodup → (∀ e ∈ es, c.output? e.1 = some e.2) →
    (c.trimResetsAt es).result = .ok () ∧
      (c.trimResetsAt es).removed = (es.filterMap fun e => e.1.qubit?.bind c.trailing?).length ∧
      Drops (fun c n => c.isTrailing n) c (es.filterMap fun e => e.1.qubit?.bind c.trailing?)
        (c.trimResetsAt es).circuit
  | [], c, ops, _, _, _ => ⟨rfl, rfl, .nil c⟩
  | (.clbit b, o) :: rest, c, ops, h, hd, hes => by
    rw [trimResetsAt, if_neg (by simp [Wire.isQubit]), List.filterMap_cons_none rfl]
    exact h.trimResetsAt_spec rest (List.nodup_cons.mp hd).2 fun e he => hes e (by simp [he])
  | (.qubit q, o) :: rest, c, ops, h, hd, hes => by
    rw [List.map_cons, List.nodup_cons] at hd
    have ho : c.output? (.qubit q) = some o := hes (.qubit q, o) (by simp)
    cases htrail : c.trailing? q with
    | none =>
      have ih := h.trimResetsAt_spec rest hd.2 fun e he => hes e (by simp [he])
      rw [List.filterMap_cons_none (by exact htrail)]
      rcases h.trimResetsAt_cons_of_not ho htrail rest with hstep | ⟨e, hstep⟩
      · rw [hstep]; exact ih
      · rw [hstep]; exact ih
    | some n =>
      have htr : c.isTrailing n := h.isTrailing_iff_trailing?.mpr ⟨q, htrail⟩
      obtain ⟨o', -, hf⟩ := h.trailing?_eq_some.mp htrail
      have hlone := (h.follower?_eq_some.mp hf).1
      obtain ⟨i, hi, -⟩ := loneReset?_eq_some.mp hlone
      obtain ⟨c', heq, s⟩ := h.remove_spec hi
      obtain ⟨e, hstep⟩ := h.trimResetsAt_cons_of_trailing ho htrail rest
      -- for the ends still to come nothing has changed
      have hsame : rest.filterMap (fun e => e.1.qubit?.bind c.trailing?) =
          rest.filterMap fun e => e.1.qubit?.bind c'.trailing? := by
        apply List.filterMap_congr
        rintro ⟨w, o'⟩ he
        cases w with
        | clbit b => rfl
        | qubit r =>
          have hrq : r ≠ q := fun e => hd.1 (List.mem_map.mpr ⟨_, he, by rw [e]⟩)
          exact (s.trailing? h hlone hrq).symm
      have ih := s.wired.trimResetsAt_spec rest hd.2 fun e he => by
        rw [s.output?]
        exact hes e (by simp [he])
      rw [hstep, List.filterMap_cons_some (by exact htrail), heq, hsame]
      refine ⟨ih.1, congrArg (· + 1) ih.2.1, .cons htr ?_⟩
      rw [heq]
      exact ih.2.2

theorem Wired.mem_outputEnds (h : c.Wired ops) {w : Wire} {o : NodeId} :
    (w, o) ∈ c.outputEnds ↔ c.output? w = some o := by
  unfold outputEnds
  rw [(sortBy_perm _ _).mem_iff]
  exact (lookup_eq_some_iff_mem (h.same_keys ▸ h.keys)).symm

theorem Wired.perm_outputEnds (h : c.Wired ops) :
    (c.outputEnds.map (·.1)).Perm (c.inputs.map (·.1)) := by
  rw [← h.same_keys]
  exact (sortBy_perm _ _).map _

theorem Wired.trimResets_spec (h : c.Wired ops) :
    c.trimResets.result = .ok () ∧ ∃ ds, (∀ n, n ∈ ds ↔ c.isTrailing n) ∧
      ds.length = c.trimResets.removed ∧
      Drops (fun c n => c.isTrailing n) c ds c.trimResets.circuit := by
  have hkeys : (c.outputEnds.map (·.1)).Nodup := h.perm_outputEnds.nodup_iff.mpr h.keys
  obtain ⟨hok, hremoved, hdrops⟩ := h.trimResetsAt_spec c.outputEnds hkeys fun e he => h.mem_outputEnds.mp he
  refine ⟨hok, _, ?_, hremoved.symm, hdrops⟩
  intro n
  rw [List.mem_filterMap, h.isTrailing_iff_trailing?]
  constructor
  · rintro ⟨⟨w, o⟩, -, hn⟩
    cases w with
    | clbit b => cases hn
    | qubit q => exact ⟨q, hn⟩
  · rintro ⟨q, hq⟩
    obtain ⟨o, ho, -⟩ := h.trailing?_eq_some.mp hq
    exact ⟨(.qubit q, o), h.mem_outputEnds.mpr ho, hq⟩

/-! ## The passes as edits -/

theorem edits_remove {c c' : Circuit} {n : NodeId} {r : Except CircuitError Instruction}
    (h : c.remove n = (r, c')) : Relation.ReflTransGen Edit c c' := by
  have := Edit.remove c n
  rw [h] at this
  exact .single this

theorem edits_mergeResetsAt (c : Circuit) (ns : List NodeId) :
    Relation.ReflTransGen Edit c (c.mergeResetsAt ns).circuit := by
  fun_induction c.mergeResetsAt ns with
  | case1 => exact .refl
  | case2 => exact .refl
  | case3 => exact .refl
  | case4 =>
    rename_i h
    exact edits_remove h
  | case5 =>
    rename_i h ih
    exact (edits_remove h).trans ih
  | case6 => assumption
  | case7 => assumption

theorem edits_trimResetsAt (c : Circuit) (es : List (Wire × NodeId)) :
    Relation.ReflTransGen Edit c (c.trimResetsAt es).circuit := by
  fun_induction c.trimResetsAt es with
  | case1 => exact .refl
  | case2 => exact .refl
  | case3 => assumption
  | case4 =>
    rename_i h
    exact edits_remove h
  | case5 =>
    rename_i h ih
    exact (edits_remove h).trans ih
  | case6 => assumption
  | case7 => assumption
  | case8 => assumption

end QuantumCircuit.Circuit

namespace QuantumCircuit

variable {κ : Type} {V : κ → Type}

/-- Whatever its result, a run only makes edits that every circuit offers. -/
def Pass.EditsOnly (pass : Pass V) : Prop :=
  ∀ c p, Relation.ReflTransGen Circuit.Edit c (pass.run c p).circuit

variable [DecidableEq κ]

theorem Sweep.circuit_outcome (s : Sweep) (add : CleanupStats → UInt64 → CleanupStats) (p : Properties V) :
    (s.outcome add p).circuit = s.circuit := by
  unfold outcome
  split <;> rfl

theorem Pass.mergeResets_editsOnly : (Pass.mergeResets : Pass V).EditsOnly := by
  intro c p
  rw [mergeResets, Sweep.circuit_outcome]
  exact c.edits_mergeResetsAt _

theorem Pass.trimResets_editsOnly : (Pass.trimResets : Pass V).EditsOnly := by
  intro c p
  rw [trimResets, Sweep.circuit_outcome]
  exact c.edits_trimResetsAt _

end QuantumCircuit
