import QuantumCircuit.Json.Reader

/-!
# Numbers in JSON text

A number without point and exponent that fits a 64-bit word, signed if it is negative, is an
integer; any other number, and minus zero, is real. Of a real number the leading digits that
fit a 64-bit word are kept: further ones before the point raise the exponent, further ones
after it are dropped.
-/

namespace QuantumCircuit.Json

open Decimal

inductive Number where
  | integer (n : Int)
  | real (a : Angle)
deriving DecidableEq, Repr

def Number.found : Number → Found
  | integer n => .integer n
  | real a => .real a

def maxSignificand : Nat := UInt64.size - 1

def maxExponent : Nat := 0x7FFFFFFF

def finishReal (negative : Bool) (significand : Nat) (e : Int) (rest : List Char) :
    Except ReadError (Angle × List Char) :=
  match realOf? negative significand e with
  | some a => .ok (a, rest)
  | none => .error .outOfRange

/-- The digits of an exponent, after its sign. An exponent beyond all bounds makes a number
too large, or zero. -/
def exponentDigits (negative : Bool) (significand : Nat) (e : Int) (down : Bool) :
    List Char → Except ReadError (Angle × List Char)
  | [] => .error .endInValue
  | c :: cs =>
    match digit? c with
    | none => .error .invalidNumber
    | some d =>
      let (x, _, rest) := absorb maxExponent d 0 cs
      if startsWithDigit rest then
        if significand ≠ 0 ∧ !down then .error .outOfRange
        else finishReal negative 0 0 (rest.dropWhile isDigit)
      else finishReal negative significand (if down then e - x else e + x) rest

def exponentPart (negative : Bool) (significand : Nat) (e : Int) (cs : List Char) :
    Except ReadError (Angle × List Char) :=
  match cs with
  | c :: rest =>
    if c = 'e' ∨ c = 'E' then
      match rest with
      | '+' :: ds => exponentDigits negative significand e false ds
      | '-' :: ds => exponentDigits negative significand e true ds
      | ds => exponentDigits negative significand e false ds
    else finishReal negative significand e cs
  | [] => finishReal negative significand e []

def decimalPart (negative : Bool) (significand : Nat) (e : Int) (cs : List Char) :
    Except ReadError (Angle × List Char) :=
  match cs with
  | '.' :: ds =>
    let (significand, taken, rest) := absorb maxSignificand significand 0 ds
    if startsWithDigit rest then
      exponentPart negative significand (e - taken) (rest.dropWhile isDigit)
    else if taken = 0 then .error (if rest.isEmpty then .endInValue else .invalidNumber)
    else exponentPart negative significand (e - taken) rest
  | _ => exponentPart negative significand e cs

def hasDecimalPart : List Char → Bool
  | [] => false
  | c :: _ => c = '.' ∨ c = 'e' ∨ c = 'E'

def toReal (r : Except ReadError (Angle × List Char)) : Except ReadError (Number × List Char) :=
  r.map fun (a, rest) => (.real a, rest)

def afterInteger (negative : Bool) (n : Nat) (cs : List Char) :
    Except ReadError (Number × List Char) :=
  if hasDecimalPart cs then toReal (decimalPart negative n 0 cs)
  else if negative then
    if n = 0 ∨ UInt64.size / 2 < n then toReal (finishReal true n 0 cs) else .ok (.integer (-n), cs)
  else .ok (.integer n, cs)

def unsigned (negative : Bool) : List Char → Except ReadError (Number × List Char)
  | [] => .error .endInValue
  | c :: cs =>
    match digit? c with
    | none => .error .invalidNumber
    | some 0 => if startsWithDigit cs then .error .invalidNumber else afterInteger negative 0 cs
    | some d =>
      let (n, _, rest) := absorb maxSignificand d 0 cs
      if startsWithDigit rest then
        let more := rest.takeWhile isDigit
        toReal (decimalPart negative n more.length (rest.dropWhile isDigit))
      else afterInteger negative n rest

def Reader.number : Reader Number
  | '-' :: cs => unsigned true cs
  | cs => unsigned false cs

/-! ## Passing over a number

The form is checked, the value is not made. -/

def skipExponent : List Char → Except ReadError (List Char)
  | [] => .ok []
  | c :: rest =>
    if c = 'e' ∨ c = 'E' then
      let ds := match rest with
        | '+' :: ds => ds
        | '-' :: ds => ds
        | ds => ds
      if startsWithDigit ds then .ok (ds.dropWhile isDigit) else .error .invalidNumber
    else .ok (c :: rest)

def skipDecimal : List Char → Except ReadError (List Char)
  | '.' :: ds =>
    if startsWithDigit ds then skipExponent (ds.dropWhile isDigit) else .error .invalidNumber
  | cs => skipExponent cs

def skipUnsigned : List Char → Except ReadError (List Char)
  | [] => .error .invalidNumber
  | c :: cs =>
    match digit? c with
    | none => .error .invalidNumber
    | some 0 => if startsWithDigit cs then .error .invalidNumber else skipDecimal cs
    | some _ => skipDecimal (cs.dropWhile isDigit)

def Reader.skipNumber : Reader Unit := fun cs => do
  return ((), ← skipUnsigned (if cs.head? = some '-' then cs.tail else cs))

end QuantumCircuit.Json
