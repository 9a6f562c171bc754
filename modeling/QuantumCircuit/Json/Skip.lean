import QuantumCircuit.Json.Number
import QuantumCircuit.Json.Text

/-!
# Skipping a value

A value that nobody wants is skipped with a look at its form only. Arrays and objects may be
nested to any depth: the open ones are kept in a list, the innermost first.
-/

namespace QuantumCircuit.Json

inductive Frame where
  | list
  | object
deriving DecidableEq, Repr

/-- What is to come: a value, or the rest of the innermost open frame, of which at least one
part has been read or none. -/
inductive Stage where
  | value
  | rest (started : Bool)
deriving DecidableEq, Repr

namespace Frame

def closing : Frame → Char
  | list => ']'
  | object => '}'

def endError : Frame → ReadError
  | list => .endInList
  | object => .endInObject

def partError : Frame → ReadError
  | list => .expectedListEnd
  | object => .expectedObjectEnd

end Frame

namespace Reader

def skipKey : Frame → Reader Unit
  | .list => pure ()
  | .object => do
    match ← peek with
    | some '"' => skipString
    | some _ => refuse .keyNotString
    | none => refuse .endInObject
    colon

def skipFrom : (size : Nat) → Stage → List Frame → Reader Unit
  | 0, _, _ => refuse .endInValue
  | size + 1, .value, frames => do
    match ← peek with
    | none => refuse .endInValue
    | some '[' => do advance; skipFrom size (.rest false) (.list :: frames)
    | some '{' => do advance; skipFrom size (.rest false) (.object :: frames)
    | some 'n' => do advance; word "ull".toList; skipFrom size (.rest true) frames
    | some 't' => do advance; word "rue".toList; skipFrom size (.rest true) frames
    | some 'f' => do advance; word "alse".toList; skipFrom size (.rest true) frames
    | some '"' => do skipString; skipFrom size (.rest true) frames
    | some c =>
      if c = '-' ∨ Decimal.isDigit c then do skipNumber; skipFrom size (.rest true) frames
      else refuse .expectedValue
  | _ + 1, .rest _, [] => pure ()
  | size + 1, .rest started, frame :: frames => do
    match ← peek with
    | none => refuse frame.endError
    | some c =>
      if c = ',' ∧ started then
        advance
        skipKey frame
        skipFrom size .value (frame :: frames)
      else if c = frame.closing then
        advance
        skipFrom size (.rest true) frames
      else if started then refuse frame.partError
      else
        skipKey frame
        skipFrom size .value (frame :: frames)

/-- Skips a value. Every second step takes a character at least. -/
def skipValue : Reader Unit := fun cs => skipFrom (2 * cs.length + 2) .value [] cs

end Reader

end QuantumCircuit.Json
