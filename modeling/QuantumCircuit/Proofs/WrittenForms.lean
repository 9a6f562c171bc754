import QuantumCircuit.Json.Circuit
import QuantumCircuit.Proofs.ReadBack

/-!
# Written forms are read back

Every part of a circuit that holds no angle is read back from its written form. Two such values
of one type that are written alike are then the same.
-/

namespace QuantumCircuit

open Json

variable {α : Type} [Form α]

namespace Json

def ReadsBack (a : α) : Prop := Reads Form.read (Form.write a) a

theorem readsBack_list {as : List α} (h : ∀ a ∈ as, ReadsBack a) : ReadsBack as :=
  reads_list h

theorem ReadsBack.decode_encode {a : α} (h : ReadsBack a) : decode (encode a) = .ok a := by
  have hread := h.value [] ends_nil
  rw [List.append_nil] at hread
  simp only [decode, encode, Reader.parse, String.toList_ofList, hread, bind, Except.bind]
  rfl

/-- Reading undoes writing on the values that `p` holds of, and no two of them are written alike. -/
def Restores (p : α → Prop) : Prop :=
  (∀ a, p a → decode (encode a) = .ok a) ∧ ∀ a b, p a → p b → encode a = encode b → a = b

theorem restores_of_readsBack {p : α → Prop} (h : ∀ a, p a → ReadsBack a) : Restores p := by
  refine ⟨fun a ha => (h a ha).decode_encode, fun a b ha hb heq => ?_⟩
  have hok := (h a ha).decode_encode
  rw [heq, (h b hb).decode_encode] at hok
  exact (Except.ok.inj hok).symm

end Json

/-! ## Wires and edges -/

theorem Qubit.readsBack (q : Qubit) : ReadsBack q :=
  (reads_word32 q.id).map Qubit.mk

theorem Clbit.readsBack (b : Clbit) : ReadsBack b :=
  (reads_word32 b.id).map Clbit.mk

theorem Wire.readsBack (w : Wire) : ReadsBack w := by
  cases w with
  | qubit q => exact reads_tagged (by decide) rfl (q.readsBack.map qubit)
  | clbit b => exact reads_tagged (by decide) rfl (b.readsBack.map clbit)

theorem Link.readsBack (l : Link) : ReadsBack l := by
  have hwire := l.wire.readsBack.map some
  exact reads_object (.field _ (by decide) rfl rfl hwire (.done _)) rfl

/-! ## Gates and operations -/

namespace Gate

theorem find?_variants {g : Gate} (h : g.angle? = none) :
    variants.find? (·.name == g.tag) = some (fixed g) := by
  cases g with
  | rx | ry | rz => cases h
  | _ => rfl

theorem plain_tag (g : Gate) : plain g.tag := by
  cases g <;> simp only [tag] <;> decide

theorem readsBack {g : Gate} (h : g.angle? = none) : ReadsBack g := by
  have hw : Form.write g = Json.name g.tag := by
    simp only [Form.write, h]
  unfold ReadsBack
  rw [hw]
  exact reads_name g.plain_tag (find?_variants h) rfl

end Gate

namespace Operation

def angle? (o : Operation) : Option Angle := o.gate?.bind Gate.angle?

theorem readsBack {o : Operation} (h : o.angle? = none) : ReadsBack o := by
  cases o with
  | gate g => exact reads_tagged (by decide) rfl ((Gate.readsBack h).map gate)
  | measure | reset | barrier => exact reads_name (by decide) rfl rfl
  | delay d =>
    have hd := (reads_word64 d).map some
    refine reads_tagged (by decide) rfl ?_
    exact reads_object (.field _ (by decide) rfl rfl hd (.done _)) rfl

end Operation

/-! ## Instructions and nodes -/

namespace Instruction

def angle? (i : Instruction) : Option Angle := i.op.angle?

theorem readsBack {i : Instruction} (h : i.angle? = none) : ReadsBack i := by
  have hop := (Operation.readsBack h).map fun o => ({ op := some o } : Parts)
  have hqs := (readsBack_list fun q (_ : q ∈ i.qubits) => q.readsBack).map
    fun qs => ({ op := some i.op, qubits := some qs } : Parts)
  have hbs := (readsBack_list fun b (_ : b ∈ i.clbits) => b.readsBack).map
    fun bs => ({ op := some i.op, qubits := some i.qubits, clbits := some bs } : Parts)
  exact reads_object (.field _ (by decide) rfl rfl hop <| .field _ (by decide) rfl rfl hqs <|
    .field _ (by decide) rfl rfl hbs <| .done _) rfl

end Instruction

namespace Node

def angle? (n : Node) : Option Angle := n.instruction?.bind Instruction.angle?

theorem readsBack {n : Node} (h : n.angle? = none) : ReadsBack n := by
  cases n with
  | input w => exact reads_tagged (by decide) rfl (w.readsBack.map input)
  | output w => exact reads_tagged (by decide) rfl (w.readsBack.map output)
  | op i => exact reads_tagged (by decide) rfl ((Instruction.readsBack h).map op)

end Node

/-! ## The main result -/

/-- Wires and edges are restored whatever they hold, gates and all that may hold one as long
as they hold no angle. -/
theorem decode_undoes_encode :
    Restores (fun _ : Qubit => True) ∧ Restores (fun _ : Clbit => True) ∧
    Restores (fun _ : Wire => True) ∧ Restores (fun _ : Link => True) ∧
    Restores (fun g : Gate => g.angle? = none) ∧
    Restores (fun o : Operation => o.angle? = none) ∧
    Restores (fun i : Instruction => i.angle? = none) ∧
    Restores (fun n : Node => n.angle? = none) :=
  ⟨restores_of_readsBack fun q _ => q.readsBack, restores_of_readsBack fun b _ => b.readsBack,
    restores_of_readsBack fun w _ => w.readsBack, restores_of_readsBack fun l _ => l.readsBack,
    restores_of_readsBack fun _ => Gate.readsBack,
    restores_of_readsBack fun _ => Operation.readsBack,
    restores_of_readsBack fun _ => Instruction.readsBack,
    restores_of_readsBack fun _ => Node.readsBack⟩

def longestDelay : Node := .op ⟨.delay 18446744073709551615, [⟨4294967295⟩, ⟨0⟩], []⟩

theorem decode_undoes_encode_longestDelay :
    longestDelay.angle? = none ∧
    encode longestDelay =
      "\x7b\"Op\":\x7b\"kind\":\x7b\"Delay\":\x7b\"duration\":18446744073709551615\x7d\x7d," ++
        "\"qubits\":[4294967295,0],\"clbits\":[]\x7d\x7d" ∧
    decode (encode longestDelay) = .ok longestDelay := by
  obtain ⟨-, -, -, -, -, -, -, hnode⟩ := decode_undoes_encode
  exact ⟨rfl, by decide +kernel, hnode.1 longestDelay rfl⟩

end QuantumCircuit
