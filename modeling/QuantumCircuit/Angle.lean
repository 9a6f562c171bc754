/-!
# Rotation angles

An angle is a 64-bit binary floating-point number, held as its word, so that two angles
are equal in the logic exactly when they have the same bits. Comparing them as numbers
is `Angle.agrees`: zero has two words, and a word that is no number agrees with nothing.
-/

namespace QuantumCircuit

structure Angle where
  bits : UInt64
deriving DecidableEq, Repr, Inhabited

namespace Angle

def ofFloat (x : Float) : Angle := ⟨x.toBits⟩

def isNegative (a : Angle) : Bool := UInt64.size / 2 ≤ a.bits.toNat

def fractionSize : Nat := 0x10000000000000

def exponentField (a : Angle) : Nat := a.bits.toNat / fractionSize % 2048

def fractionField (a : Angle) : Nat := a.bits.toNat % fractionSize

def isFinite (a : Angle) : Bool := a.exponentField ≠ 2047

def isNaN (a : Angle) : Bool := a.exponentField = 2047 ∧ a.fractionField ≠ 0

def isZero (a : Angle) : Bool := a.exponentField = 0 ∧ a.fractionField = 0

def agrees (a b : Angle) : Bool :=
  !a.isNaN && !b.isNaN && (a == b || a.isZero && b.isZero)

end Angle

end QuantumCircuit
