import QuantumCircuit.Json.Error

/-!
# Reading from the front of a text

A reader takes what it reads off the front of a text, or refuses the text. Blanks are passed
over where a value or a mark is wanted.
-/

namespace QuantumCircuit.Json

abbrev Reader := StateT (List Char) (Except ReadError)

namespace Reader

variable {α : Type}

def refuse (e : ReadError) : Reader α := fun _ => .error e

def isBlank (c : Char) : Bool := c = ' ' ∨ c = '\n' ∨ c = '\t' ∨ c = '\r'

def peek : Reader (Option Char) := fun cs =>
  let rest := cs.dropWhile isBlank
  .ok (rest.head?, rest)

def advance : Reader Unit := fun cs => .ok ((), cs.tail)

def word : List Char → Reader Unit
  | [] => pure ()
  | w :: ws => fun
    | [] => .error .endInValue
    | c :: cs => if c = w then word ws cs else .error .expectedIdent

def colon : Reader Unit := do
  match ← peek with
  | some ':' => advance
  | some _ => refuse .expectedColon
  | none => refuse .endInObject

/-- Whether an element follows in an array, of which `first` is still to come or some have
been read. -/
def nextElement (first : Bool) : Reader Bool := do
  match ← peek with
  | none => refuse .endInList
  | some c =>
    if c = ']' then return false
    else if first then return true
    else if c = ',' then
      advance
      match ← peek with
      | some ']' => refuse .trailingComma
      | some _ => return true
      | none => refuse .endInValue
    else refuse .expectedListEnd

def endList : Reader Unit := do
  match ← peek with
  | some ']' => advance
  | some ',' =>
    advance
    match ← peek with
    | some ']' => refuse .trailingComma
    | _ => refuse .trailingCharacters
  | some _ => refuse .trailingCharacters
  | none => refuse .endInList

def nextMember (first : Bool) : Reader Bool := do
  match ← peek with
  | none => refuse .endInObject
  | some c =>
    if c = '}' then return false
    else if first then
      if c = '"' then return true else refuse .keyNotString
    else if c = ',' then
      advance
      match ← peek with
      | some '"' => return true
      | some '}' => refuse .trailingComma
      | some _ => refuse .keyNotString
      | none => refuse .endInValue
    else refuse .expectedObjectEnd

def parse (r : Reader α) (text : String) : Except ReadError α := do
  let (a, rest) ← r text.toList
  if (rest.dropWhile isBlank).isEmpty then return a else throw .trailingCharacters

end Reader

end QuantumCircuit.Json
