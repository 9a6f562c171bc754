/-!
# Typed stores

A typed store holds at most one value per key, and each key has a type of values of its own. All
values lie in slots of one and the same kind: a slot holds a value packed up with the key to whose
type it belongs, and only under that key can it be unpacked. A typed store is made of slots that
hold values of the keys they are under, so whatever lies in it can be had.
-/

namespace QuantumCircuit

def unpack? {κ : Type} [DecidableEq κ] {F : κ → Type} (k : κ) : Sigma F → Option (F k)
  | ⟨j, a⟩ => if h : j = k then some (h ▸ a) else none

/-- Slots under keys. What a slot holds may belong to another key than the one it is under. -/
structure Slots {κ : Type} (V : κ → Type) where
  cells : List (κ × Sigma V) := []

section
variable {κ : Type} [DecidableEq κ] {V : κ → Type}

namespace Slots

def slot? (s : Slots V) (k : κ) : Option (Sigma V) := s.cells.lookup k

def get? (s : Slots V) (k : κ) : Option (V k) := (s.slot? k).bind (unpack? k)

def contains (s : Slots V) (k : κ) : Bool := (s.slot? k).isSome

def erase (s : Slots V) (k : κ) : Slots V := ⟨s.cells.filter (·.1 != k)⟩

def insert (s : Slots V) (k : κ) (v : V k) : Slots V := ⟨(k, ⟨k, v⟩) :: (s.erase k).cells⟩

def modify (s : Slots V) (k : κ) (f : V k → V k) : Slots V :=
  match s.get? k with
  | some v => s.insert k (f v)
  | none => s

/-- Changes the value under `k`, taking `fallback` for it if nothing is there, and gives what it
was before the change. There is no such value if what is there belongs to another key. -/
def modifyD? (s : Slots V) (k : κ) (fallback : V k) (f : V k → V k) : Option (V k × Slots V) :=
  (unpack? k ((s.slot? k).getD ⟨k, fallback⟩)).map fun v => (v, s.insert k (f v))

def Typed (s : Slots V) : Prop := ∀ cell ∈ s.cells, cell.2.1 = cell.1

end Slots

/-! ## Reading after a change -/

@[simp] theorem unpack?_self {F : κ → Type} (k : κ) (a : F k) : unpack? k ⟨k, a⟩ = some a := by
  simp [unpack?]

theorem unpack?_of_ne {F : κ → Type} {j k : κ} (h : j ≠ k) (a : F j) :
    unpack? k (⟨j, a⟩ : Sigma F) = none := by
  simp [unpack?, h]

theorem lookup_filter_self {α : Type} (k : κ) (cells : List (κ × α)) :
    (cells.filter (·.1 != k)).lookup k = none := by
  simp only [List.lookup_eq_none_iff, List.mem_filter]
  intro cell hcell
  have hne : cell.1 ≠ k := by simpa using hcell.2
  simpa using hne.symm

theorem lookup_filter_of_ne {α : Type} {j k : κ} (hjk : j ≠ k) (cells : List (κ × α)) :
    (cells.filter (·.1 != j)).lookup k = cells.lookup k := by
  induction cells with
  | nil => rfl
  | cons cell rest ih =>
    obtain ⟨i, a⟩ := cell
    by_cases h : i = j
    · subst h
      rw [List.filter_cons_of_neg (by simp), ih, List.lookup_cons, beq_false_of_ne hjk.symm]
    · rw [List.filter_cons_of_pos (by simpa using h), List.lookup_cons, List.lookup_cons, ih]

namespace Slots

theorem slot?_insert_self (s : Slots V) (k : κ) (v : V k) : (s.insert k v).slot? k = some ⟨k, v⟩ :=
  List.lookup_cons_self

theorem slot?_insert_of_ne {j k : κ} (h : j ≠ k) (s : Slots V) (v : V j) :
    (s.insert j v).slot? k = s.slot? k := by
  rw [slot?, insert, List.lookup_cons, beq_false_of_ne h.symm]
  exact lookup_filter_of_ne h s.cells

@[simp] theorem get?_erase_self (s : Slots V) (k : κ) : (s.erase k).get? k = none := by
  rw [get?, slot?, erase, lookup_filter_self]
  rfl

theorem get?_erase_of_ne {j k : κ} (h : j ≠ k) (s : Slots V) : (s.erase j).get? k = s.get? k := by
  rw [get?, slot?, erase, lookup_filter_of_ne h]
  rfl

@[simp] theorem get?_insert_self (s : Slots V) (k : κ) (v : V k) : (s.insert k v).get? k = some v := by
  rw [get?, slot?_insert_self, Option.bind_some, unpack?_self]

theorem get?_insert_of_ne {j k : κ} (h : j ≠ k) (s : Slots V) (v : V j) :
    (s.insert j v).get? k = s.get? k := by
  rw [get?, slot?_insert_of_ne h, get?]

theorem get?_modify_self (s : Slots V) (k : κ) (f : V k → V k) :
    (s.modify k f).get? k = (s.get? k).map f := by
  unfold modify
  cases h : s.get? k with
  | none => exact h
  | some v => exact get?_insert_self s k (f v)

theorem get?_modify_of_ne {j k : κ} (h : j ≠ k) (s : Slots V) (f : V j → V j) :
    (s.modify j f).get? k = s.get? k := by
  unfold modify
  cases s.get? j with
  | none => rfl
  | some v => exact get?_insert_of_ne h s (f v)

/-! ## Slots that hold values of their keys -/

namespace Typed

variable {s : Slots V}

theorem erase (h : s.Typed) (k : κ) : (s.erase k).Typed :=
  fun cell hcell => h cell (List.mem_filter.mp hcell).1

theorem insert (h : s.Typed) (k : κ) (v : V k) : (s.insert k v).Typed := by
  intro cell hcell
  rcases List.mem_cons.mp hcell with rfl | hcell
  · rfl
  · exact h.erase k cell hcell

theorem modify (h : s.Typed) (k : κ) (f : V k → V k) : (s.modify k f).Typed := by
  unfold Slots.modify
  cases s.get? k with
  | none => exact h
  | some v => exact h.insert k (f v)

theorem slot?_eq (h : s.Typed) (k : κ) : s.slot? k = (s.get? k).map (⟨k, ·⟩) := by
  cases hk : s.slot? k with
  | none => simp [get?, hk]
  | some p =>
    obtain ⟨l₁, l₂, heq, -⟩ := List.lookup_eq_some_iff.mp hk
    have hp : p.1 = k := h (k, p) (by rw [heq]; simp)
    obtain ⟨j, v⟩ := p
    subst hp
    simp [get?, hk]

theorem contains_eq_isSome (h : s.Typed) (k : κ) : s.contains k = (s.get? k).isSome := by
  rw [contains, h.slot?_eq, Option.isSome_map]

theorem modifyD?_eq (h : s.Typed) (k : κ) (fallback : V k) (f : V k → V k) :
    s.modifyD? k fallback f =
      some ((s.get? k).getD fallback, s.insert k (f ((s.get? k).getD fallback))) := by
  rw [modifyD?, h.slot?_eq]
  cases s.get? k <;> simp

end Typed

end Slots

/-! ## Stores -/

structure TypedStore (V : κ → Type) where
  slots : Slots V
  typed : slots.Typed

namespace TypedStore

def empty : TypedStore V := ⟨{}, fun _ h => nomatch h⟩

def get? (s : TypedStore V) (k : κ) : Option (V k) := s.slots.get? k

def contains (s : TypedStore V) (k : κ) : Bool := s.slots.contains k

def erase (s : TypedStore V) (k : κ) : TypedStore V := ⟨s.slots.erase k, s.typed.erase k⟩

def insert (s : TypedStore V) (k : κ) (v : V k) : TypedStore V :=
  ⟨s.slots.insert k v, s.typed.insert k v⟩

def modify (s : TypedStore V) (k : κ) (f : V k → V k) : TypedStore V :=
  ⟨s.slots.modify k f, s.typed.modify k f⟩

def modifyD (s : TypedStore V) (k : κ) (fallback : V k) (f : V k → V k) : TypedStore V where
  slots := ((s.slots.modifyD? k fallback f).get (by simp [s.typed.modifyD?_eq])).2
  typed := by simpa [s.typed.modifyD?_eq] using s.typed.insert k _

theorem slots_modifyD (s : TypedStore V) (k : κ) (fallback : V k) (f : V k → V k) :
    (s.modifyD k fallback f).slots = s.slots.insert k (f ((s.get? k).getD fallback)) := by
  simp [modifyD, s.typed.modifyD?_eq, get?]

theorem get?_modifyD_self (s : TypedStore V) (k : κ) (fallback : V k) (f : V k → V k) :
    (s.modifyD k fallback f).get? k = some (f ((s.get? k).getD fallback)) := by
  rw [get?, slots_modifyD, Slots.get?_insert_self]

theorem get?_modifyD_of_ne {j k : κ} (h : j ≠ k) (s : TypedStore V) (fallback : V j) (f : V j → V j) :
    (s.modifyD j fallback f).get? k = s.get? k := by
  rw [get?, slots_modifyD, Slots.get?_insert_of_ne h, get?]

end TypedStore

end

end QuantumCircuit
