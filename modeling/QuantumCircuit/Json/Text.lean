import QuantumCircuit.Json.Reader

/-!
# Strings in JSON text

A string ends at the next quote that is not escaped. A character beyond the basic plane may be
given by two escapes, one for each half of its surrogate pair.
-/

namespace QuantumCircuit.Json

def hexDigit? (c : Char) : Option Nat :=
  if '0' ≤ c ∧ c ≤ '9' then some (c.toNat - 48)
  else if 'a' ≤ c ∧ c ≤ 'f' then some (c.toNat - 87)
  else if 'A' ≤ c ∧ c ≤ 'F' then some (c.toNat - 55)
  else none

def utf8Length (cs : List Char) : Nat := cs.foldr (fun c n => c.utf8Size + n) 0

/-- Four hexadecimal digits. Whether there is room for four is a matter of bytes. -/
def hexEscape : List Char → Except ReadError (Nat × List Char)
  | a :: b :: c :: d :: rest =>
    match hexDigit? a, hexDigit? b, hexDigit? c, hexDigit? d with
    | some a, some b, some c, some d => .ok (((a * 16 + b) * 16 + c) * 16 + d, rest)
    | _, _, _, _ => .error .invalidEscape
  | cs => .error (if utf8Length cs < 4 then .endInString else .invalidEscape)

def isHighSurrogate (n : Nat) : Bool := 0xD800 ≤ n ∧ n ≤ 0xDBFF

def isLowSurrogate (n : Nat) : Bool := 0xDC00 ≤ n ∧ n ≤ 0xDFFF

def lowSurrogate : List Char → Except ReadError (Nat × List Char)
  | '\\' :: 'u' :: rest => do
    let (low, rest) ← hexEscape rest
    if isLowSurrogate low then return (low, rest) else throw .loneSurrogate
  | [] => .error .endInString
  | ['\\'] => .error .endInString
  | _ => .error .endOfEscape

def codeEscape (cs : List Char) : Except ReadError (Char × List Char) := do
  let (n, rest) ← hexEscape cs
  if isLowSurrogate n then throw .loneSurrogate
  else if isHighSurrogate n then
    let (low, rest) ← lowSurrogate rest
    return (Char.ofNat (0x10000 + (n - 0xD800) * 0x400 + (low - 0xDC00)), rest)
  else return (Char.ofNat n, rest)

def letterEscape? : Char → Option Char
  | '"' => some '"'
  | '\\' => some '\\'
  | '/' => some '/'
  | 'b' => some '\x08'
  | 'f' => some '\x0c'
  | 'n' => some '\n'
  | 'r' => some '\r'
  | 't' => some '\t'
  | _ => none

def escape : List Char → Except ReadError (Char × List Char)
  | [] => .error .endInString
  | 'u' :: rest => codeEscape rest
  | c :: rest =>
    match letterEscape? c with
    | some e => .ok (e, rest)
    | none => .error .invalidEscape

def stringBody : (size : Nat) → List Char → Except ReadError (List Char × List Char)
  | _, [] => .error .endInString
  | 0, _ => .error .endInString
  | size + 1, c :: cs =>
    if c = '"' then .ok ([], cs)
    else if c = '\\' then do
      let (e, rest) ← escape cs
      let (body, rest) ← stringBody size rest
      return (e :: body, rest)
    else if c.toNat < 0x20 then .error .controlCharacter
    else do
      let (body, rest) ← stringBody size cs
      return (c :: body, rest)

def Reader.string : Reader String := fun cs => do
  let (body, rest) ← stringBody cs.length cs.tail
  return (String.ofList body, rest)

/-! ## Passing over a string

What is not kept is not decoded: any four hexadecimal digits make an escape. -/

def skipEscape : List Char → Except ReadError (List Char)
  | [] => .error .endInString
  | 'u' :: rest => do
    let (_, rest) ← hexEscape rest
    return rest
  | c :: rest => if (letterEscape? c).isSome then .ok rest else .error .invalidEscape

def skipBody : (size : Nat) → List Char → Except ReadError (List Char)
  | _, [] => .error .endInString
  | 0, _ => .error .endInString
  | size + 1, c :: cs =>
    if c = '"' then .ok cs
    else if c = '\\' then do skipBody size (← skipEscape cs)
    else if c.toNat < 0x20 then .error .controlCharacter
    else skipBody size cs

def Reader.skipString : Reader Unit := fun cs => do
  return ((), ← skipBody cs.length cs.tail)

end QuantumCircuit.Json
