import QuantumCircuit.Text.Shown

/-!
# Quotation in messages

A text between double quotes. The quote, the backslash and a few control characters are
escaped by a letter, and every other character that does not show by itself by its code point.
-/

namespace QuantumCircuit.Text

def codeEscape (c : Char) : String :=
  "\\u\x7b" ++ String.ofList (Nat.toDigits 16 c.toNat) ++ "\x7d"

def quoteChar (c : Char) : String :=
  if c = '"' then "\\\""
  else if c = '\\' then "\\\\"
  else if c = '\n' then "\\n"
  else if c = '\r' then "\\r"
  else if c = '\t' then "\\t"
  else if c = '\x00' then "\\0"
  else if isShown c then c.toString
  else codeEscape c

def quoted (s : String) : String := "\"" ++ String.join (s.toList.map quoteChar) ++ "\""

end QuantumCircuit.Text
