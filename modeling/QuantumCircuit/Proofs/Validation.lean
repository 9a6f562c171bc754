import QuantumCircuit.Proofs.LocalEdits

/-!
# What a circuit takes in

A circuit takes in the instructions that fit it and refuses the others, each for its first fault
in a fixed order. A refusal changes nothing at all: every wire of a reachable circuit leads into
its output end, so no fault can be met once the new node is there. The methods of a named circuit
append one instruction each, and the same holds for them.
-/

namespace QuantumCircuit

theorem firstRepeat?_go_eq_some {α : Type} [DecidableEq α] {x : α} : ∀ (xs seen : List α),
    firstRepeat?.go seen xs = some x ↔
      ∃ p s, xs = p ++ x :: s ∧ firstRepeat?.go seen p = none ∧ (x ∈ p ∨ x ∈ seen)
  | [], seen => by simp [firstRepeat?.go]
  | y :: ys, seen => by
    rw [firstRepeat?.go]
    by_cases hy : y ∈ seen
    · rw [if_pos hy]
      constructor
      · intro h
        cases h
        exact ⟨[], ys, rfl, rfl, .inr hy⟩
      · rintro ⟨p, s, heq, hp, -⟩
        cases p with
        | nil => rw [(List.cons.inj heq).1]
        | cons z p =>
          rw [← (List.cons.inj heq).1, firstRepeat?.go, if_pos hy] at hp
          cases hp
    · rw [if_neg hy, firstRepeat?_go_eq_some ys (y :: seen)]
      constructor
      · rintro ⟨p, s, rfl, hp, hx⟩
        refine ⟨y :: p, s, rfl, ?_, ?_⟩
        · rw [firstRepeat?.go, if_neg hy, hp]
        · simp only [List.mem_cons] at hx ⊢
          grind
      · rintro ⟨p, s, heq, hp, hx⟩
        cases p with
        | nil =>
          have hx' : x ∈ seen := hx.resolve_left (by simp)
          exact absurd ((List.cons.inj heq).1 ▸ hx') hy
        | cons z p =>
          obtain ⟨rfl, rfl⟩ := List.cons.inj heq
          rw [firstRepeat?.go, if_neg hy] at hp
          refine ⟨p, s, rfl, hp, ?_⟩
          simp only [List.mem_cons] at hx ⊢
          grind

theorem firstRepeat?_eq_some {α : Type} [DecidableEq α] {x : α} (xs : List α) :
    firstRepeat? xs = some x ↔ ∃ p s, xs = p ++ x :: s ∧ p.Nodup ∧ x ∈ p := by
  rw [firstRepeat?, firstRepeat?_go_eq_some]
  simp [firstRepeat?_go_eq_none]

theorem Instruction.gate?_eq_some {i : Instruction} {g : Gate} : i.gate? = some g ↔ i.op = .gate g := by
  unfold gate?
  cases i.op <;> simp [Operation.gate?]

def Instruction.RightArity (i : Instruction) : Prop := ∀ g, i.op = .gate g → i.qubits.length = g.arity

namespace Circuit

structure Fits (c : Circuit) (i : Instruction) : Prop where
  arity : i.RightArity
  qubits : ∀ q ∈ i.qubits, c.hasWire (.qubit q)
  clbits : ∀ b ∈ i.clbits, c.hasWire (.clbit b)
  nodup_qubits : i.qubits.Nodup
  nodup_clbits : i.clbits.Nodup

/-- The first fault of an instruction. Each kind of fault is looked for only where there is none of
the kinds before it, and along the operands up to the first that has it. -/
inductive FirstFault (c : Circuit) (i : Instruction) : CircuitError → Prop
  | wrongArity {g : Gate} (hg : i.op = .gate g) (hn : i.qubits.length ≠ g.arity) :
      FirstFault c i (.wrongArity g.name g.arity i.qubits.length)
  | missingQubit {p s : List Qubit} {q : Qubit} (ha : i.RightArity) (heq : i.qubits = p ++ q :: s)
      (hp : ∀ r ∈ p, c.hasWire (.qubit r)) (hq : ¬ c.hasWire (.qubit q)) :
      FirstFault c i (.qubitNotFound q (i.gate?.map Gate.name))
  | missingClbit {p s : List Clbit} {b : Clbit} (ha : i.RightArity)
      (hqs : ∀ q ∈ i.qubits, c.hasWire (.qubit q)) (heq : i.clbits = p ++ b :: s)
      (hp : ∀ a ∈ p, c.hasWire (.clbit a)) (hb : ¬ c.hasWire (.clbit b)) :
      FirstFault c i (.clbitNotFound b (i.gate?.map Gate.name))
  | repeatedQubit {p s : List Qubit} {q : Qubit} (ha : i.RightArity)
      (hqs : ∀ q ∈ i.qubits, c.hasWire (.qubit q)) (hbs : ∀ b ∈ i.clbits, c.hasWire (.clbit b))
      (heq : i.qubits = p ++ q :: s) (hp : p.Nodup) (hq : q ∈ p) :
      FirstFault c i (.repeatedQubit q (i.gate?.map Gate.name))
  | repeatedClbit {p s : List Clbit} {b : Clbit} (ha : i.RightArity)
      (hqs : ∀ q ∈ i.qubits, c.hasWire (.qubit q)) (hbs : ∀ b ∈ i.clbits, c.hasWire (.clbit b))
      (hd : i.qubits.Nodup) (heq : i.clbits = p ++ b :: s) (hp : p.Nodup) (hb : b ∈ p) :
      FirstFault c i (.malformed (.repeatedClbit b i.name))

variable {c : Circuit} {i : Instruction} {e : CircuitError}

/-! ## The check of an instruction -/

theorem arityFault?_eq_none : arityFault? i = none ↔ i.RightArity := by
  unfold arityFault? Instruction.RightArity
  simp only [← Instruction.gate?_eq_some]
  cases i.gate? with
  | none => simp
  | some g => simp [eq_comm]

theorem arityFault?_eq_some : arityFault? i = some e ↔
    ∃ g, i.op = .gate g ∧ i.qubits.length ≠ g.arity ∧ e = .wrongArity g.name g.arity i.qubits.length := by
  unfold arityFault?
  simp only [← Instruction.gate?_eq_some]
  cases i.gate? with
  | none => simp
  | some g => simp [eq_comm]

theorem fits_iff : c.Fits i ↔ c.refusal? i = none := by
  rw [refusal?_eq_none, arityFault?_eq_none, i.nodup_wires]
  simp only [Instruction.wires, List.forall_mem_append, List.forall_mem_map]
  constructor
  · rintro ⟨ha, hqs, hbs, hdq, hdb⟩
    exact ⟨ha, ⟨hqs, hbs⟩, hdq, hdb⟩
  · rintro ⟨ha, ⟨hqs, hbs⟩, hdq, hdb⟩
    exact ⟨ha, hqs, hbs, hdq, hdb⟩

theorem find?_missing {α : Type} {wire : α → Wire} {xs : List α} {x : α} :
    xs.find? (fun y => !c.hasWire (wire y)) = some x ↔
      ∃ p s, xs = p ++ x :: s ∧ (∀ y ∈ p, c.hasWire (wire y)) ∧ ¬ c.hasWire (wire x) := by
  rw [List.find?_eq_some_iff_append]
  simp only [Bool.not_not, Bool.not_eq_true']
  grind

theorem refusal?_eq_some : c.refusal? i = some e ↔ c.FirstFault i e := by
  simp only [refusal?, Option.orElse_eq_orElse, Option.orElse_eq_or, Option.or_eq_some_iff,
    Option.map_eq_some_iff, Option.map_eq_none_iff, arityFault?_eq_none, arityFault?_eq_some,
    find?_missing, List.find?_eq_none, firstRepeat?_eq_none, firstRepeat?_eq_some, Bool.not_eq_true',
    Bool.not_eq_false]
  constructor
  · rintro (⟨g, hg, hn, rfl⟩ | ⟨ha, h⟩)
    · exact .wrongArity hg hn
    rcases h with ⟨q, ⟨p, s, heq, hp, hq⟩, rfl⟩ | ⟨hqs, h⟩
    · exact .missingQubit ha heq hp hq
    rcases h with ⟨b, ⟨p, s, heq, hp, hb⟩, rfl⟩ | ⟨hbs, h⟩
    · exact .missingClbit ha hqs heq hp hb
    rcases h with ⟨q, ⟨p, s, heq, hp, hq⟩, rfl⟩ | ⟨hd, b, ⟨p, s, heq, hp, hb⟩, rfl⟩
    · exact .repeatedQubit ha hqs hbs heq hp hq
    · exact .repeatedClbit ha hqs hbs hd heq hp hb
  · intro h
    cases h with
    | wrongArity hg hn => exact .inl ⟨_, hg, hn, rfl⟩
    | missingQubit ha heq hp hq => exact .inr ⟨ha, .inl ⟨_, ⟨_, _, heq, hp, hq⟩, rfl⟩⟩
    | missingClbit ha hqs heq hp hb =>
      exact .inr ⟨ha, .inr ⟨hqs, .inl ⟨_, ⟨_, _, heq, hp, hb⟩, rfl⟩⟩⟩
    | repeatedQubit ha hqs hbs heq hp hq =>
      exact .inr ⟨ha, .inr ⟨hqs, .inr ⟨hbs, .inl ⟨_, ⟨_, _, heq, hp, hq⟩, rfl⟩⟩⟩⟩
    | repeatedClbit ha hqs hbs hd heq hp hb =>
      exact .inr ⟨ha, .inr ⟨hqs, .inr ⟨hbs, .inr ⟨hd, _, ⟨_, _, heq, hp, hb⟩, rfl⟩⟩⟩⟩

/-! ## Attempts to append -/

/-- An attempt to append `i` to `c` came to `result` and left `c'`: the instruction was taken in
exactly if it fits, was refused exactly for its first fault, and then nothing has changed. -/
structure Validates (c : Circuit) (i : Instruction) (result : Except CircuitError NodeId)
    (c' : Circuit) : Prop where
  ok_iff : (∃ n, result = .ok n) ↔ c.Fits i
  error_iff : ∀ e, result = .error e ↔ c.FirstFault i e
  unchanged : ∀ e, result = .error e → c' = c
  attached : ∀ w, result ≠ .error (.malformed (.noOutputEdge w))

theorem Wired.validates_append {ops : Wire → List NodeId} (h : c.Wired ops) (i : Instruction) :
    c.Validates i (c.append i).1 (c.append i).2 := by
  cases hi : c.refusal? i with
  | none =>
    obtain ⟨n, c', heq, -⟩ := h.append_spec hi
    rw [heq]
    refine ⟨⟨fun _ => fits_iff.mpr hi, fun _ => ⟨n, rfl⟩⟩, ?_, ?_, ?_⟩
    · intro e
      simp [← refusal?_eq_some, hi]
    · intro e he
      cases he
    · intro w hw
      cases hw
  | some e =>
    have hfault := refusal?_eq_some.mp hi
    rw [append_of_refusal hi]
    refine ⟨?_, ?_, fun _ _ => rfl, ?_⟩
    · simp [fits_iff, hi]
    · intro e'
      simp [← refusal?_eq_some, hi]
    · intro w hw
      cases hw
      cases hfault

end Circuit

/-- **Instructions are validated exactly and atomically**, by the circuit and by each method of a
named circuit, which does to the circuit what appending its instruction does. -/
theorem append_is_validated {c : Circuit} (hc : c.Reachable) :
    (∀ i, c.Validates i (c.append i).1 (c.append i).2) ∧
      ∀ name b, let r := NamedCircuit.call ⟨name, c⟩ b
        c.Validates b.instruction r.1 r.2.circuit ∧ r.2.name = name ∧
          r.1 = (c.append b.instruction).1 ∧ r.2.circuit = (c.append b.instruction).2 := by
  obtain ⟨ops, h⟩ := hc.wired
  refine ⟨h.validates_append, ?_⟩
  intro name b
  rw [NamedCircuit.call_eq_append]
  exact ⟨h.validates_append b.instruction, rfl, rfl, rfl⟩

theorem append_validates_faulty :
    let c := (braided.remove 7).2
    c.Reachable ∧
      c.append ⟨.gate .cx, [⟨0⟩, ⟨9⟩, ⟨9⟩], [⟨5⟩]⟩ = (.error (.wrongArity "cx" 2 3), c) ∧
      c.append ⟨.barrier, [⟨1⟩, ⟨9⟩, ⟨8⟩], [⟨5⟩]⟩ = (.error (.qubitNotFound ⟨9⟩ none), c) ∧
      c.append ⟨.gate .cx, [⟨0⟩, ⟨0⟩], [⟨0⟩, ⟨5⟩]⟩ = (.error (.clbitNotFound ⟨5⟩ (some "cx")), c) ∧
      c.append ⟨.delay 4, [⟨0⟩, ⟨1⟩, ⟨1⟩, ⟨0⟩], [⟨0⟩, ⟨0⟩]⟩ = (.error (.repeatedQubit ⟨1⟩ none), c) ∧
      c.append ⟨.reset, [⟨1⟩, ⟨0⟩], [⟨0⟩, ⟨0⟩]⟩ =
        (.error (.malformed (.repeatedClbit ⟨0⟩ "reset")), c) ∧
      (∃ n, (c.append ⟨.reset, [⟨1⟩, ⟨0⟩], [⟨0⟩]⟩).1 = .ok n) ∧
      NamedCircuit.cz ⟨"t", c⟩ ⟨0⟩ ⟨0⟩ = (.error (.repeatedQubit ⟨0⟩ (some "cz")), ⟨"t", c⟩) ∧
      NamedCircuit.h ⟨"t", c⟩ ⟨1⟩ = (.ok 7, ⟨"t", (c.append (.gateOn .h ⟨1⟩)).2⟩) := by
  intro c
  have hreach : c.Reachable := reachable_braided.tail (.remove _ 7)
  obtain ⟨happend, hbuild⟩ := append_is_validated hreach
  have hwires : c.hasWire (.qubit ⟨0⟩) ∧ c.hasWire (.qubit ⟨1⟩) ∧ c.hasWire (.clbit ⟨0⟩) ∧
      ¬ c.hasWire (.qubit ⟨9⟩) ∧ ¬ c.hasWire (.clbit ⟨5⟩) := by decide +kernel
  obtain ⟨hq₀, hq₁, hb₀, hq₉, hb₅⟩ := hwires
  have hrefused : ∀ {i e}, c.FirstFault i e → c.append i = (.error e, c) := by
    intro i e he
    have herr := ((happend i).error_iff e).mpr he
    exact Prod.ext herr ((happend i).unchanged e herr)
  refine ⟨hreach, hrefused ?_, hrefused ?_, hrefused ?_, hrefused ?_, hrefused ?_, ?_, ?_, ?_⟩
  · exact .wrongArity (g := .cx) rfl (by decide)
  · exact .missingQubit (p := [⟨1⟩]) (s := [⟨8⟩]) (by simp [Instruction.RightArity]) rfl (by simpa) hq₉
  · refine .missingClbit (p := [⟨0⟩]) (s := []) ?_ (by simpa) rfl (by simpa) hb₅
    rintro g hg
    cases hg
    rfl
  · exact .repeatedQubit (p := [⟨0⟩, ⟨1⟩]) (s := [⟨0⟩]) (by simp [Instruction.RightArity])
      (by simp [hq₀, hq₁]) (by simpa) rfl (by decide) (by simp)
  · exact .repeatedClbit (p := [⟨0⟩]) (s := []) (by simp [Instruction.RightArity])
      (by simp [hq₀, hq₁]) (by simpa) (by decide) rfl (by decide) (by simp)
  · refine (happend _).ok_iff.mpr ⟨by simp [Instruction.RightArity], ?_, ?_, by decide, by decide⟩
    · simp [hq₀, hq₁]
    · simpa
  · obtain ⟨hcz, hname, -⟩ := hbuild "t" (.cz ⟨0⟩ ⟨0⟩)
    have hfault : c.FirstFault (.gateAcross .cz ⟨0⟩ ⟨0⟩) (.repeatedQubit ⟨0⟩ (some "cz")) := by
      refine .repeatedQubit (p := [⟨0⟩]) (s := []) ?_ ?_ (by simp [Instruction.gateAcross, Instruction.gate])
        rfl (by decide) (by simp)
      · rintro g hg
        cases hg
        rfl
      · simpa [Instruction.gateAcross, Instruction.gate]
    have herr := (hcz.error_iff _).mpr hfault
    have hsame := hcz.unchanged _ herr
    exact Prod.ext herr (congrArg₂ NamedCircuit.mk hname hsame)
  · obtain ⟨-, hname, hresult, hcircuit⟩ := hbuild "t" (.h ⟨1⟩)
    have hseven : (c.append (.gateOn .h ⟨1⟩)).1 = .ok 7 := by decide +kernel
    exact Prod.ext (hresult.trans hseven) (congrArg₂ NamedCircuit.mk hname hcircuit)

end QuantumCircuit
