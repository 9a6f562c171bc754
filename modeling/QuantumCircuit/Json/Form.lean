import QuantumCircuit.Json.Shape

/-!
# Written forms

A type with a written form has a writer and a reader for it. Nothing is written between the
marks, and the fields of a record are written in an object in their order.
-/

namespace QuantumCircuit.Json

class Form (α : Type) where
  write : α → List Char
  read : Reader α

def encode {α : Type} [Form α] (a : α) : String := String.ofList (Form.write a)

def decode {α : Type} [Form α] (text : String) : Except ReadError α := Reader.parse Form.read text

/-! ## Writing -/

/-- A name between quotes. Names of fields and variants need no escapes. -/
def name (s : String) : List Char := '"' :: s.toList ++ ['"']

def commaSeparated : List (List Char) → List Char
  | [] => []
  | [item] => item
  | item :: rest => item ++ ',' :: commaSeparated rest

def array (items : List (List Char)) : List Char := '[' :: commaSeparated items ++ [']']

def object (members : List (String × List Char)) : List Char :=
  '{' :: commaSeparated (members.map fun (key, value) => name key ++ ':' :: value) ++ ['}']

def tagged (tag : String) (content : List Char) : List Char := object [(tag, content)]

/-! ## Words, numbers and lists -/

instance : Form Bool where
  write b := if b then "true".toList else "false".toList
  read := Reader.bool

instance : Form UInt32 where
  write n := Decimal.digits n.toNat
  read := Reader.word32

instance : Form UInt64 where
  write n := Decimal.digits n.toNat
  read := Reader.word64

instance : Form Angle where
  write := real
  read := Reader.angle

instance {α : Type} [Form α] : Form (List α) where
  write as := array (as.map Form.write)
  read := Reader.list Form.read

def Field.of {σ β : Type} [Form β] (name : String) (get : σ → Option β) (set : σ → β → σ) :
    Field σ where
  name := name
  isSet s := (get s).isSome
  read s := return set s (← Form.read)

def required {β : Type} (name : String) : Option β → Except ReadError β
  | some b => .ok b
  | none => .error (.missingField name)

end QuantumCircuit.Json
