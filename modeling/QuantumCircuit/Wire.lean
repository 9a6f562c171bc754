import QuantumCircuit.Sorting

/-!
# Wires

A wire carries one qubit or one classical bit, each known by a 32-bit number.
Listings of wires put the qubits first and go by number within each kind.
-/

namespace QuantumCircuit

structure Qubit where
  id : UInt32
deriving DecidableEq, Repr, Inhabited

structure Clbit where
  id : UInt32
deriving DecidableEq, Repr, Inhabited

inductive Wire where
  | qubit (q : Qubit)
  | clbit (b : Clbit)
deriving DecidableEq, Repr

def Qubit.label (q : Qubit) : String := "q" ++ toString q.id

def Clbit.label (b : Clbit) : String := "c" ++ toString b.id

namespace Wire

def isQubit : Wire → Bool
  | qubit _ => true
  | clbit _ => false

def qubit? : Wire → Option Qubit
  | qubit q => some q
  | clbit _ => none

def clbit? : Wire → Option Clbit
  | qubit _ => none
  | clbit b => some b

def label : Wire → String
  | qubit q => q.label
  | clbit b => b.label

/-- The place of a wire among all wires: every qubit stands before every classical bit. -/
def rank : Wire → Nat
  | qubit q => q.id.toNat
  | clbit b => UInt32.size + b.id.toNat

def le (v w : Wire) : Bool := v.rank ≤ w.rank

def sort (ws : List Wire) : List Wire := sortBy le ws

theorem qubit?_eq_some {w : Wire} {q : Qubit} : w.qubit? = some q ↔ w = qubit q := by
  cases w <;> simp [qubit?]

theorem clbit?_eq_some {w : Wire} {b : Clbit} : w.clbit? = some b ↔ w = clbit b := by
  cases w <;> simp [clbit?]

theorem rank_inj {v w : Wire} (h : v.rank = w.rank) : v = w := by
  cases v with
  | qubit q =>
    cases w with
    | qubit r =>
      have : q.id = r.id := UInt32.toNat_inj.mp h
      cases q; cases r; simp_all
    | clbit b =>
      have := q.id.toNat_lt
      simp only [rank, UInt32.size] at h
      omega
  | clbit b =>
    cases w with
    | qubit r =>
      have := r.id.toNat_lt
      simp only [rank, UInt32.size] at h
      omega
    | clbit c =>
      simp only [rank] at h
      have : b.id = c.id := UInt32.toNat_inj.mp (by omega)
      cases b; cases c; simp_all

end Wire

end QuantumCircuit
