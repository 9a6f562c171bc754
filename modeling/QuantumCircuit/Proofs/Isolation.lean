import QuantumCircuit.TypedStore

/-!
# Keys of a store do not disturb each other

Calls on a store are made at any keys in any order. What they do at one key is what they would do
on a cell that holds a value of its type or none, with the calls at all other keys left out. The
slots of the store are alike and could hold a value under a wrong key, which would then be there
and not be had. No sequence of calls on an empty store comes to that.
-/

namespace QuantumCircuit

/-- A call at a key with values in `α`. A change is given by what it makes of the value it finds. -/
inductive StoreCall (α : Type) where
  | insert (a : α)
  | get
  | modify (f : α → α)
  | modifyD (fallback : α) (f : α → α)
  | contains
  | remove

inductive StoreAnswer (α : Type) where
  | done
  | value (a : Option α)
  | present (b : Bool)

/-! ## One cell -/

namespace StoreCall

variable {α : Type}

def onCell (cell : Option α) : StoreCall α → StoreAnswer α × Option α
  | insert a => (.done, some a)
  | get => (.value cell, cell)
  | modify f => (.value cell, cell.map f)
  | modifyD fallback f => (.value (some (cell.getD fallback)), some (f (cell.getD fallback)))
  | contains => (.present cell.isSome, cell)
  | remove => (.value cell, none)

def runOnCell (cell : Option α) : List (StoreCall α) → List (StoreAnswer α) × Option α
  | [] => ([], cell)
  | call :: calls =>
    let rest := runOnCell (call.onCell cell).2 calls
    ((call.onCell cell).1 :: rest.1, rest.2)

end StoreCall

section
variable {κ : Type} [DecidableEq κ] {V : κ → Type}

/-! ## Many slots -/

namespace Slots

/-- The answer to a call at `k` and the slots after it; none if a value cannot be unpacked that
should be there. -/
def call (s : Slots V) (k : κ) : StoreCall (V k) → Option (StoreAnswer (V k) × Slots V)
  | .insert v => some (.done, s.insert k v)
  | .get => some (.value (s.get? k), s)
  | .modify f => some (.value (s.get? k), s.modify k f)
  | .modifyD fallback f => (s.modifyD? k fallback f).map fun (v, s') => (.value (some v), s')
  | .contains => some (.present (s.contains k), s)
  | .remove => some (.value (s.get? k), s.erase k)

def run (s : Slots V) : List (Σ k, StoreCall (V k)) → Option (List (Σ k, StoreAnswer (V k)) × Slots V)
  | [] => some ([], s)
  | ⟨k, call⟩ :: calls => do
    let (answer, s) ← s.call k call
    let (answers, s) ← s.run calls
    return (⟨k, answer⟩ :: answers, s)

end Slots

namespace TypedStore

def call (s : TypedStore V) (k : κ) : StoreCall (V k) → StoreAnswer (V k) × TypedStore V
  | .insert v => (.done, s.insert k v)
  | .get => (.value (s.get? k), s)
  | .modify f => (.value (s.get? k), s.modify k f)
  | .modifyD fallback f => (.value (some ((s.get? k).getD fallback)), s.modifyD k fallback f)
  | .contains => (.present (s.contains k), s)
  | .remove => (.value (s.get? k), s.erase k)

def run (s : TypedStore V) : List (Σ k, StoreCall (V k)) → List (Σ k, StoreAnswer (V k)) × TypedStore V
  | [] => ([], s)
  | ⟨k, call⟩ :: calls =>
    let rest := (s.call k call).2.run calls
    (⟨k, (s.call k call).1⟩ :: rest.1, rest.2)

theorem slots_call (s : TypedStore V) (k : κ) (call : StoreCall (V k)) :
    s.slots.call k call = some ((s.call k call).1, (s.call k call).2.slots) := by
  cases call with
  | modifyD fallback f =>
    simp only [Slots.call, TypedStore.call, slots_modifyD, s.typed.modifyD?_eq, Option.map_some]
    rfl
  | _ => rfl

theorem slots_run (calls : List (Σ k, StoreCall (V k))) (s : TypedStore V) :
    s.slots.run calls = some ((s.run calls).1, (s.run calls).2.slots) := by
  induction calls generalizing s with
  | nil => rfl
  | cons c calls ih => simp [Slots.run, run, slots_call, ih]

theorem contains_eq_isSome (s : TypedStore V) (k : κ) : s.contains k = (s.get? k).isSome :=
  s.typed.contains_eq_isSome k

theorem call_spec (s : TypedStore V) (k : κ) (call : StoreCall (V k)) :
    ((s.call k call).1, (s.call k call).2.get? k) = call.onCell (s.get? k) ∧
      ∀ j, k ≠ j → (s.call k call).2.get? j = s.get? j := by
  cases call with
  | insert v =>
    exact ⟨congrArg _ (s.slots.get?_insert_self k v), fun _ hj => s.slots.get?_insert_of_ne hj v⟩
  | get => exact ⟨rfl, fun _ _ => rfl⟩
  | modify f =>
    exact ⟨congrArg _ (s.slots.get?_modify_self k f), fun _ hj => s.slots.get?_modify_of_ne hj f⟩
  | modifyD fallback f =>
    exact ⟨congrArg _ (s.get?_modifyD_self k fallback f), fun _ hj => s.get?_modifyD_of_ne hj fallback f⟩
  | contains => exact ⟨by rw [TypedStore.call, contains_eq_isSome]; rfl, fun _ _ => rfl⟩
  | remove => exact ⟨congrArg _ (s.slots.get?_erase_self k), fun _ hj => s.slots.get?_erase_of_ne hj⟩

theorem keys_run (calls : List (Σ k, StoreCall (V k))) (s : TypedStore V) :
    (s.run calls).1.map (·.1) = calls.map (·.1) := by
  induction calls generalizing s with
  | nil => rfl
  | cons c calls ih => simp [run, ih]

end TypedStore

/-! ## One key at a time -/

def partAt {F : κ → Type} (k : κ) (l : List (Sigma F)) : List (F k) := l.filterMap (unpack? k)

theorem partAt_cons_self {F : κ → Type} (k : κ) (a : F k) (l : List (Sigma F)) :
    partAt k (⟨k, a⟩ :: l) = a :: partAt k l :=
  List.filterMap_cons_some (unpack?_self k a)

theorem partAt_cons_of_ne {F : κ → Type} {j k : κ} (h : j ≠ k) (a : F j) (l : List (Sigma F)) :
    partAt k (⟨j, a⟩ :: l) = partAt k l :=
  List.filterMap_cons_none (unpack?_of_ne h a)

theorem TypedStore.run_spec (k : κ) (calls : List (Σ k, StoreCall (V k))) (s : TypedStore V) :
    StoreCall.runOnCell (s.get? k) (partAt k calls) = (partAt k (s.run calls).1, (s.run calls).2.get? k) := by
  induction calls generalizing s with
  | nil => rfl
  | cons c calls ih =>
    obtain ⟨j, call⟩ := c
    obtain ⟨hself, hother⟩ := s.call_spec j call
    unfold run
    by_cases hjk : j = k
    · subst hjk
      rw [partAt_cons_self, partAt_cons_self, StoreCall.runOnCell, ← hself, ih]
    · rw [partAt_cons_of_ne hjk, partAt_cons_of_ne hjk, ← hother k hjk, ih]

/-- **A store keeps its keys apart.** Every sequence of calls on an empty store succeeds, and at each
key the answers and the value in the end are those of the calls at that key alone, made on a cell
that was empty. Whatever is there in the end can be had. -/
theorem store_keeps_keys_apart (calls : List (Σ k, StoreCall (V k))) :
    let (answers, s) := (TypedStore.empty : TypedStore V).run calls
    ({} : Slots V).run calls = some (answers, s.slots) ∧ answers.map (·.1) = calls.map (·.1) ∧
      ∀ k, StoreCall.runOnCell none (partAt k calls) = (partAt k answers, s.get? k) ∧
        (s.contains k ↔ ∃ v, s.get? k = some v) := by
  refine ⟨TypedStore.empty.slots_run calls, TypedStore.empty.keys_run calls, fun k => ?_⟩
  refine ⟨TypedStore.empty.run_spec k calls, ?_⟩
  rw [TypedStore.contains_eq_isSome, Option.isSome_iff_exists]

-- a value under a wrong key would be there, could not be had, and would break a change
example : let s : Slots fun k : Bool => if k then Nat else String := ⟨[(true, ⟨false, "x"⟩)]⟩
    s.contains true ∧ s.get? true = none ∧ (s.modifyD? true (5 : Nat) id).isNone := by
  decide

end

end QuantumCircuit
