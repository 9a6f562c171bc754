/-!
# Decimal digits

Natural numbers in decimal notation, without leading zeros.
-/

namespace QuantumCircuit.Decimal

def digitChar (d : Nat) : Char := Char.ofNat (48 + d)

def digit? (c : Char) : Option Nat := if '0' ≤ c ∧ c ≤ '9' then some (c.toNat - 48) else none

def isDigit (c : Char) : Bool := (digit? c).isSome

def digits (n : Nat) : List Char :=
  if n < 10 then [digitChar n] else digits (n / 10) ++ [digitChar (n % 10)]

def startsWithDigit : List Char → Bool
  | [] => false
  | c :: _ => isDigit c

/-- Takes digits from the front of a text as long as the number they continue stays within
`limit`. Gives that number, how many digits were taken, and the rest of the text. -/
def absorb (limit : Nat) : (value taken : Nat) → List Char → Nat × Nat × List Char
  | value, taken, [] => (value, taken, [])
  | value, taken, c :: rest =>
    match digit? c with
    | none => (value, taken, c :: rest)
    | some d =>
      if value * 10 + d ≤ limit then absorb limit (value * 10 + d) (taken + 1) rest
      else (value, taken, c :: rest)

end QuantumCircuit.Decimal
