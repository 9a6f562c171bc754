import QuantumCircuit.Json.Skip

/-!
# Values of a given shape

Readers for the shapes that values take: words and numbers, arrays, records, whose fields may
stand in an object under their names or in an array in their order, and variants, which are
named by a string or by the only key of an object.
-/

namespace QuantumCircuit.Json

namespace Reader

variable {α : Type}

/-- Refuses the value that comes next, for which a value of another shape was wanted. A word,
number or string is read first, an array or object is not. -/
def mismatch (expected : String) : Reader α := do
  match ← peek with
  | some 'n' => do advance; word "ull".toList; refuse (.wrongType .null expected)
  | some 't' => do advance; word "rue".toList; refuse (.wrongType (.bool true) expected)
  | some 'f' => do advance; word "alse".toList; refuse (.wrongType (.bool false) expected)
  | some '"' => do refuse (.wrongType (.text (← string)) expected)
  | some '[' => refuse (.wrongType .sequence expected)
  | some '{' => refuse (.wrongType .map expected)
  | some c =>
    if c = '-' ∨ Decimal.isDigit c then do refuse (.wrongType (← number).found expected)
    else refuse .expectedValue
  | none => refuse .endInValue

/-! ## Words and numbers -/

def bool : Reader Bool := do
  match ← peek with
  | none => refuse .endInValue
  | some 't' => do advance; word "rue".toList; return true
  | some 'f' => do advance; word "alse".toList; return false
  | some _ => mismatch "a boolean"

def unit : Reader Unit := do
  match ← peek with
  | none => refuse .endInValue
  | some 'n' => do advance; word "ull".toList
  | some _ => mismatch "unit"

def anyNumber (expected : String) : Reader Number := do
  match ← peek with
  | none => refuse .endInValue
  | some c => if c = '-' ∨ Decimal.isDigit c then number else mismatch expected

def natural (bound : Nat) (expected : String) : Reader Nat := do
  match ← anyNumber expected with
  | .integer n =>
    if 0 ≤ n ∧ n < bound then return n.toNat else refuse (.wrongValue (.integer n) expected)
  | .real a => refuse (.wrongType (.real a) expected)

def word32 : Reader UInt32 := return UInt32.ofNat (← natural UInt32.size "u32")

def word64 : Reader UInt64 := return UInt64.ofNat (← natural UInt64.size "u64")

def angle : Reader Angle := do
  match ← anyNumber "f64" with
  | .integer n => return .ofFloat (Float.ofInt n)
  | .real a => return a

/-! ## Arrays -/

def elements (item : Reader α) : (size : Nat) → (first : Bool) → Reader (List α)
  | 0, _ => refuse .endInList
  | size + 1, first => do
    if ← nextElement first then
      let a ← item
      let rest ← elements item size false
      return a :: rest
    else return []

def list (item : Reader α) : Reader (List α) := do
  match ← peek with
  | none => refuse .endInValue
  | some '[' =>
    advance
    let items ← elements item ((← get).length + 1) true
    endList
    return items
  | some _ => mismatch "a sequence"

end Reader

/-! ## Records -/

/-- A field of a record, of which the fields read so far are held in `σ`. -/
structure Field (σ : Type) where
  name : String
  isSet : σ → Bool
  read : σ → Reader σ

structure Record (σ α : Type) where
  title : String
  fields : List (Field σ)
  blank : σ
  /-- Whether a member of another name is refused, or skipped. -/
  closed : Bool := false
  /-- Whether an array may hold fewer elements than there are fields. -/
  mayBeShort : Bool := false
  build : σ → Except ReadError α

namespace Record

variable {α σ : Type}

open Reader

def arrayTitle (r : Record σ α) : String :=
  let n := r.fields.length
  r.title ++ " with " ++ toString n ++ (if n = 1 then " element" else " elements")

def inOrder (r : Record σ α) : List (Field σ) → (done : Nat) → σ → Reader σ
  | [], _, s => return s
  | f :: rest, done, s => do
    if ← nextElement (done == 0) then r.inOrder rest (done + 1) (← f.read s)
    else if r.mayBeShort then return s
    else refuse (.wrongLength done r.arrayTitle)

def members (r : Record σ α) : (size : Nat) → (first : Bool) → σ → Reader σ
  | 0, _, _ => refuse .endInObject
  | size + 1, first, s => do
    if ← nextMember first then
      let key ← string
      match r.fields.find? (·.name == key) with
      | some f =>
        if f.isSet s then refuse (.duplicateField key)
        else
          colon
          r.members size false (← f.read s)
      | none =>
        if r.closed then refuse (.unknownField key (r.fields.map (·.name)))
        else
          colon
          skipValue
          r.members size false s
    else return s

def read (r : Record σ α) : Reader α := do
  match ← peek with
  | none => refuse .endInValue
  | some '[' =>
    advance
    let s ← r.inOrder r.fields 0 r.blank
    endList
    r.build s
  | some '{' =>
    advance
    let s ← r.members ((← get).length + 1) true r.blank
    advance
    r.build s
  | some _ => mismatch r.title

end Record

/-! ## Variants -/

inductive Payload (α : Type) where
  | none (value : α)
  | one (read : Reader α)
  | fields (read : Reader α)

structure Variant (α : Type) where
  name : String
  payload : Payload α

namespace Variant

variable {α : Type}

open Reader

def named (vs : List (Variant α)) : Reader (Variant α) := do
  let name ← string
  match vs.find? (·.name == name) with
  | some v => return v
  | none => refuse (.unknownVariant name (vs.map (·.name)))

def alone (v : Variant α) : Reader α :=
  match v.payload with
  | .none a => return a
  | .one _ => refuse (.wrongType .unitVariant "newtype variant")
  | .fields _ => refuse (.wrongType .unitVariant "struct variant")

def content (v : Variant α) : Reader α :=
  match v.payload with
  | .none a => do unit; return a
  | .one read => read
  | .fields read => read

def read (vs : List (Variant α)) : Reader α := do
  match ← peek with
  | none => refuse .endInValue
  | some '"' => do (← named vs).alone
  | some '{' =>
    advance
    match ← peek with
    | none => refuse .endInObject
    | some '}' => refuse .expectedValue
    | some '"' =>
      let v ← named vs
      colon
      let a ← v.content
      match ← peek with
      | some '}' =>
        advance
        return a
      | some _ => refuse .expectedValue
      | none => refuse .endInObject
    | some _ => refuse .keyNotString
  | some _ => refuse .expectedValue

end Variant

end QuantumCircuit.Json
