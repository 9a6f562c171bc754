import QuantumCircuit.Proofs.LongestChain
import QuantumCircuit.Proofs.LocalEdits

/-!
# Neighbours on a wire

The questions for the next and the previous node on a wire look at the first edge that fits. On a
circuit that edits lead to there is at most one, and it is there exactly where the node says that
the wire leads on: at the operations on the wire, and at one of its ends. So what is asked in one
direction is undone by asking in the other.
-/

namespace QuantumCircuit

def Direction.start : Direction → Wire → Node
  | .forward => .input
  | .backward => .output

namespace Circuit

variable {c : Circuit} {ops : Wire → List NodeId} {a : Node} {m n : NodeId} {w : Wire}

/-- How the question `ask` is answered at `n` on `w`: with a neighbour exactly at the operations on
the wire and at its end `endOf w`, and at all other live nodes with the news that they are not on it. -/
structure AnswersAt (c : Circuit) (ask : NodeId → Wire → Except CircuitError NodeId)
    (endOf : Wire → Node) (n : NodeId) (w : Wire) : Prop where
  ok_iff : (∃ m, ask n w = .ok m) ↔
    c.node? n = some (endOf w) ∨ ∃ i, c.node? n = some (.op i) ∧ w ∈ i.wires
  dead_iff : ask n w = .error (.deadNode n) ↔ c.node? n = none
  off_iff : ask n w = .error (.notOnWire n w) ↔
    ∃ a, c.node? n = some a ∧ a ≠ endOf w ∧ ∀ i, a = .op i → w ∉ i.wires

/-! ## What can be answered at all -/

theorem neighbour_of_dead (d : Direction) (h : c.node? n = none) (w : Wire) :
    c.neighbour d n w = .error (.deadNode n) := by
  have hdead : ¬ c.graph.isLive n := by simp [isLive_iff, h]
  rw [neighbour, if_neg hdead]

theorem neighbour_of_live (d : Direction) (h : c.node? n = some a) (w : Wire) :
    (∃ m, c.neighbour d n w = .ok m) ∨ c.neighbour d n w = .error (.notOnWire n w) := by
  rw [neighbour, if_pos (isLive_iff.mpr ⟨a, h⟩)]
  split
  · exact .inl ⟨_, rfl⟩
  · exact .inr rfl

theorem AnswersAt.of_ok_iff {d : Direction} {endOf : Wire → Node}
    (hok : (∃ m, c.neighbour d n w = .ok m) ↔
      c.node? n = some (endOf w) ∨ ∃ i, c.node? n = some (.op i) ∧ w ∈ i.wires) :
    c.AnswersAt (c.neighbour d) endOf n w := by
  cases hn : c.node? n with
  | none =>
    have hask := neighbour_of_dead d hn w
    exact ⟨by simp [hn, hask], by simp [hn, hask], by simp [hn, hask]⟩
  | some a =>
    rcases neighbour_of_live d hn w with ⟨m, hm⟩ | hoff
    · -- there is an answer, so the node is one of those that have one
      have hplace := hok.mp ⟨m, hm⟩
      rw [hn] at hplace
      refine ⟨hok, by simp [hn, hm], ?_⟩
      simp only [hm, hn]
      grind
    · have hplace := mt hok.mpr (by simp [hoff])
      rw [hn] at hplace
      refine ⟨hok, by simp [hn, hoff], ?_⟩
      simp only [hoff, hn]
      grind

/-! ## In a wired circuit -/

namespace Wired

theorem mem_wires_of_edge (h : c.Wired ops) (d : Direction) {e : Edge Wire} (he : e ∈ c.graph.edges)
    (ha : c.node? (e.near d) = some a) : e.label ∈ a.wires :=
  (h.mem_track ha e.label).mp (h.threaded.near_mem d he)

theorem node?_of_edge (h : c.Wired ops) (d : Direction) {e : Edge Wire} (he : e ∈ c.graph.edges) :
    c.node? (e.near d) = some (d.start e.label) ∨
      ∃ i, c.node? (e.near d) = some (.op i) ∧ e.label ∈ i.wires := by
  have hadj : c.graph.Adj e.source e.target := ⟨e, he, rfl, rfl⟩
  obtain ⟨a, ha⟩ := isLive_iff.mp (h.isLive_of_mem_track (h.threaded.near_mem d he))
  have hw := h.mem_wires_of_edge d he ha
  cases a with
  | op i => exact .inr ⟨i, ha, hw⟩
  | input v =>
    cases d with
    | forward => exact .inl (List.mem_singleton.mp hw ▸ ha)
    | backward => exact absurd ha (h.not_input_of_adj hadj v)
  | output v =>
    cases d with
    | forward => exact absurd ha (h.not_output_of_adj hadj v)
    | backward => exact .inl (List.mem_singleton.mp hw ▸ ha)

theorem exists_edge_of_start (h : c.Wired ops) (d : Direction) (hn : c.node? n = some (d.start w)) :
    ∃ e ∈ c.graph.edges, e.near d = n ∧ e.label = w := by
  cases d with
  | forward =>
    have hin := (h.input_iff w n).mpr hn
    obtain ⟨a, o, ha, -, ht⟩ := h.ends (w := w) (by simp [hasWire, hin])
    obtain rfl : a = n := Option.some.inj (ha.symm.trans hin)
    obtain ⟨m, r, hm⟩ : ∃ m r, ops w ++ [o] = m :: r := by cases ops w <;> simp
    exact ⟨⟨a, m, w⟩, h.mem_edges_of_track (p := []) (ht.trans (by rw [hm]; rfl)), rfl, rfl⟩
  | backward =>
    obtain ⟨p, m, ht⟩ := h.exists_last ((h.output_iff w n).mpr hn)
    exact ⟨⟨m, n, w⟩, h.mem_edges_of_track ht, rfl, rfl⟩

theorem exists_edge_of_mem_ops (h : c.Wired ops) (d : Direction) (hn : n ∈ ops w) :
    ∃ e ∈ c.graph.edges, e.near d = n ∧ e.label = w := by
  obtain ⟨p, k, m, r, ht⟩ := h.exists_between hn
  cases d with
  | forward => exact ⟨⟨n, m, w⟩, h.mem_edges_of_track (p := p ++ [k]) (by simpa using ht), rfl, rfl⟩
  | backward => exact ⟨⟨k, n, w⟩, h.mem_edges_of_track ht, rfl, rfl⟩

theorem exists_neighbour (h : c.Wired ops) (d : Direction)
    (hn : c.node? n = some (d.start w) ∨ ∃ i, c.node? n = some (.op i) ∧ w ∈ i.wires) :
    ∃ m, c.neighbour d n w = .ok m := by
  have hedge : ∃ e ∈ c.graph.edges, e.near d = n ∧ e.label = w := by
    rcases hn with hn | ⟨i, hi, hw⟩
    · exact h.exists_edge_of_start d hn
    · exact h.exists_edge_of_mem_ops d ((h.mem_ops w n).mpr ⟨i, instruction?_eq_some.mpr hi, hw⟩)
  obtain ⟨e, he, rfl, rfl⟩ := hedge
  exact ⟨_, h.neighbour_of_edge d he⟩

theorem answersAt_neighbour (h : c.Wired ops) (d : Direction) (n : NodeId) (w : Wire) :
    c.AnswersAt (c.neighbour d) d.start n w := by
  refine .of_ok_iff ⟨?_, h.exists_neighbour d⟩
  rintro ⟨m, hm⟩
  simpa using h.node?_of_edge d (edge_of_neighbour hm)

end Wired

end Circuit

/-- **Neighbours are exact and undo each other.** An operation on the wire has both neighbours, the
ends of the wire have one each, and nothing else has any. The neighbour is the one that an edge of
the wire leads to, so asking forth and back comes to where it began. -/
theorem neighbours_are_exact {c : Circuit} (hc : c.Reachable) (n : NodeId) (w : Wire) :
    c.AnswersAt c.next .input n w ∧ c.AnswersAt c.prev .output n w ∧
      ∀ m, (c.next n w = .ok m ↔ ⟨n, m, w⟩ ∈ c.graph.edges) ∧
        (c.next n w = .ok m ↔ c.prev m w = .ok n) := by
  obtain ⟨ops, h⟩ := hc.wired
  refine ⟨h.answersAt_neighbour .forward n w, h.answersAt_neighbour .backward n w, ?_⟩
  intro m
  have hback : c.prev m w = .ok n ↔ ⟨n, m, w⟩ ∈ c.graph.edges := h.neighbour_eq_ok
  exact ⟨h.neighbour_eq_ok, h.neighbour_eq_ok.trans hback.symm⟩

theorem neighbours_in_braided :
    let c := (((braided.remove 8).2.remove 7).2.append (.gateOn .h ⟨1⟩)).2
    let q : Wire := .qubit ⟨1⟩
    c.Reachable ∧ c.node? 7 = some (.op (.gateOn .h ⟨1⟩)) ∧ c.node? 3 = some (.output q) ∧
      (∃ m, c.next 7 q = .ok m) ∧ c.next 9 q = .ok 7 ∧ c.prev 7 q = .ok 9 ∧
      c.next 7 (.clbit ⟨0⟩) = .error (.notOnWire 7 (.clbit ⟨0⟩)) ∧
      c.next 3 q = .error (.notOnWire 3 q) ∧ c.prev 8 q = .error (.deadNode 8) := by
  intro c q
  have hreach : c.Reachable :=
    ((reachable_braided.tail (.remove _ 8)).tail (.remove _ 7)).tail (.append _ _)
  have h₇ : c.node? 7 = some (.op (.gateOn .h ⟨1⟩)) := by decide +kernel
  have h₃ : c.node? 3 = some (.output q) := by decide +kernel
  have h₈ : c.node? 8 = none := by decide +kernel
  have hedge : (⟨9, 7, q⟩ : Edge Wire) ∈ c.graph.edges := by decide +kernel
  obtain ⟨hnext, -, -⟩ := neighbours_are_exact hreach 7 q
  obtain ⟨hbit, -, -⟩ := neighbours_are_exact hreach 7 (.clbit ⟨0⟩)
  obtain ⟨hend, -, -⟩ := neighbours_are_exact hreach 3 q
  obtain ⟨-, hdead, -⟩ := neighbours_are_exact hreach 8 q
  obtain ⟨-, -, hback⟩ := neighbours_are_exact hreach 9 q
  have hforth : c.next 9 q = .ok 7 := (hback 7).1.mpr hedge
  refine ⟨hreach, h₇, h₃, hnext.ok_iff.mpr (.inr ⟨_, h₇, by decide⟩), hforth, (hback 7).2.mp hforth,
    hbit.off_iff.mpr ⟨_, h₇, by simp, ?_⟩, hend.off_iff.mpr ⟨_, h₃, by simp, by simp⟩,
    hdead.dead_iff.mpr h₈⟩
  rintro i hi
  cases hi
  decide

end QuantumCircuit
