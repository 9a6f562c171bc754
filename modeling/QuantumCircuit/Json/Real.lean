import QuantumCircuit.Decimal.Digits
import QuantumCircuit.Decimal.Shortest

/-!
# Real numbers in JSON text

A real number is written with the fewest digits that read back, without exponent if its
leading digit is near the point, and always with a point or an exponent. JSON has no word for
what is not a finite number, so that is written as null.

A real number is read from an integer of at most 64 bits and a power of ten by one rounded
multiplication or division, so the last bit is not always that of the nearest number.
-/

namespace QuantumCircuit.Json

open Decimal

def writtenPlain (e : Int) : Bool := -5 ≤ e ∧ e ≤ 15

def plainForm (ds : List Char) (e : Int) : List Char :=
  if e < 0 then
    '0' :: '.' :: List.replicate (-e - 1).toNat '0' ++ ds
  else
    let whole := ds.take (e.toNat + 1)
    let fraction := ds.drop (e.toNat + 1)
    whole ++ List.replicate (e.toNat + 1 - ds.length) '0' ++
      '.' :: (if fraction.isEmpty then ['0'] else fraction)

def exponentForm (ds : List Char) (e : Int) : List Char :=
  ds.take 1 ++ (if ds.length ≤ 1 then [] else '.' :: ds.drop 1) ++
    'e' :: (if e < 0 then '-' else '+') :: digits e.natAbs

def magnitude (a : Angle) : List Char :=
  if a.isZero then ['0', '.', '0']
  else
    let x := shortest a
    let ds := digits x.coefficient
    let e := x.exponent + ds.length - 1
    if writtenPlain e then plainForm ds e else exponentForm ds e

def real (a : Angle) : List Char :=
  if a.isFinite then (if a.isNegative then ['-'] else []) ++ magnitude a
  else ['n', 'u', 'l', 'l']

/-! ## Reading -/

def powerOfTen (k : Nat) : Float := Float.ofScientific 1 false k

/-- Multiplies by a power of ten; nothing if the product is too large. Powers too small to be
held are divided out in steps. -/
def scale (x : Float) (e : Int) : Option Float :=
  if 0 ≤ e then
    if e ≤ 308 then
      let y := x * powerOfTen e.toNat
      if y.isInf then none else some y
    else if x == 0 then some x
    else none
  else if -308 ≤ e then some (x / powerOfTen (-e).toNat)
  else if x == 0 then some x
  else scale (x / powerOfTen 308) (e + 308)
termination_by (-e).toNat

def realOf? (negative : Bool) (significand : Nat) (e : Int) : Option Angle :=
  (scale (Float.ofNat significand) e).map fun x => .ofFloat (if negative then -x else x)

end QuantumCircuit.Json
