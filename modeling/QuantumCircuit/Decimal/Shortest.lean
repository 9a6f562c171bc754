import QuantumCircuit.Angle

/-!
# The fewest digits that read back

Of the decimal numbers that round to a given binary number, those with the fewest digits are
the multiples of the greatest power of ten that has a multiple among them. Of its two
multiples next to the number the nearer one is taken, and between two equally near ones the
even one.
-/

namespace QuantumCircuit.Decimal

structure Scaled where
  coefficient : Nat
  exponent : Int
deriving DecidableEq, Repr

/-- The reals that round to a positive binary number: the number itself, and the bounds, all
in units of `2 ^ unit`. The bounds belong to them if `closed`. -/
structure Rounding where
  value : Nat
  low : Nat
  high : Nat
  unit : Int
  closed : Bool

/-- The reals that round to a finite number other than zero, by its size alone. Below a power
of two the next number is only half as far away as above it. -/
def rounding (a : Angle) : Rounding :=
  let f := a.fractionField
  let e := a.exponentField
  let m := if e = 0 then f else Angle.fractionSize + f
  { value := 4 * m
    low := if f = 0 ∧ 1 < e then 4 * m - 1 else 4 * m - 2
    high := 4 * m + 2
    unit := (if e = 0 then 1 else (e : Int)) - 1077
    closed := m % 2 = 0 }

namespace Rounding

def ratio (r : Rounding) (k : Int) : Nat × Nat :=
  (Nat.pow 2 r.unit.toNat * Nat.pow 10 (-k).toNat,
    Nat.pow 2 (-r.unit).toNat * Nat.pow 10 k.toNat)

def multiple? (r : Rounding) (k : Int) : Option Nat :=
  let (p, q) := r.ratio k
  let value := r.value * p
  let inside (c : Nat) : Bool :=
    if r.closed then r.low * p ≤ c * q ∧ c * q ≤ r.high * p
    else r.low * p < c * q ∧ c * q < r.high * p
  let c := value / q
  -- twice the distance to the lower multiple, against the distance between the two
  let twice := 2 * (value % q)
  match inside c, inside (c + 1) with
  | true, true => some (if twice < q ∨ twice = q ∧ c % 2 = 0 then c else c + 1)
  | true, false => some c
  | false, true => some (c + 1)
  | false, false => none

def search (r : Rounding) : (steps : Nat) → (k : Int) → Scaled
  | 0, k => ⟨r.value * (r.ratio k).1 / (r.ratio k).2, k⟩
  | steps + 1, k =>
    match r.multiple? k with
    | some c => ⟨c, k⟩
    | none => r.search steps (k - 1)

end Rounding

/-- The shortest decimal number that reads back as a finite number other than zero, by its
size alone. Every such number is below `10 ^ 309` and a multiple of `10 ^ (-1074)`. -/
def shortest (a : Angle) : Scaled := (rounding a).search (309 + 1074) 309

end QuantumCircuit.Decimal
