import QuantumCircuit.Json.Text

/-!
# Ways to spell a string

A character of a string stands for itself unless it is a quote, a backslash or a control character.
Some can be given by a letter after a backslash, all by their code in four hexadecimal digits of
either case, and those beyond the basic plane by the codes of their surrogate pair. A string may be
spelled in many ways, and the reader takes them all.
-/

namespace QuantumCircuit.Json

open Reader

def IsHexDigit (d : Nat) (c : Char) : Prop :=
  "0123456789abcdef".toList[d]? = some c ∨ "0123456789ABCDEF".toList[d]? = some c

inductive IsCode (n : Nat) : List Char → Prop
  | digits {a b c d : Char} (ha : IsHexDigit (n / 0x1000) a) (hb : IsHexDigit (n / 0x100 % 0x10) b)
      (hc : IsHexDigit (n / 0x10 % 0x10) c) (hd : IsHexDigit (n % 0x10) d) : IsCode n [a, b, c, d]

def letterEscapes : List (Char × Char) :=
  [('"', '"'), ('\\', '\\'), ('/', '/'), ('b', '\x08'), ('f', '\x0c'), ('n', '\n'), ('r', '\r'),
    ('t', '\t')]

/-- The ways to write a character in a string. -/
inductive Spelling (c : Char) : List Char → Prop
  | plain (hquote : c ≠ '"') (hslash : c ≠ '\\') (hcontrol : 0x20 ≤ c.toNat) : Spelling c [c]
  | letter {l : Char} (h : (l, c) ∈ letterEscapes) : Spelling c ['\\', l]
  | code {digits : List Char} (h : IsCode c.toNat digits) : Spelling c ('\\' :: 'u' :: digits)
  | pair {high low : List Char} (hplane : 0x10000 ≤ c.toNat)
      (hhigh : IsCode (0xD800 + (c.toNat - 0x10000) / 0x400) high)
      (hlow : IsCode (0xDC00 + (c.toNat - 0x10000) % 0x400) low) :
      Spelling c ('\\' :: 'u' :: (high ++ '\\' :: 'u' :: low))

inductive Spells : List Char → List Char → Prop
  | nil : Spells [] []
  | cons {c : Char} {cs text rest : List Char} (h : Spelling c text) (hs : Spells cs rest) :
      Spells (c :: cs) (text ++ rest)

/-! ## Every string can be spelled -/

theorem exists_hexDigit {d : Nat} (h : d < 0x10) : ∃ c, IsHexDigit d c :=
  ⟨_, .inl (List.getElem?_eq_getElem (l := "0123456789abcdef".toList) h)⟩

theorem exists_code {n : Nat} (h : n < 0x10000) : ∃ digits, IsCode n digits := by
  obtain ⟨a, ha⟩ := exists_hexDigit (d := n / 0x1000) (by omega)
  obtain ⟨b, hb⟩ := exists_hexDigit (d := n / 0x100 % 0x10) (by omega)
  obtain ⟨c, hc⟩ := exists_hexDigit (d := n / 0x10 % 0x10) (by omega)
  obtain ⟨d, hd⟩ := exists_hexDigit (d := n % 0x10) (by omega)
  exact ⟨_, .digits ha hb hc hd⟩

theorem exists_spelling (c : Char) : ∃ text, Spelling c text := by
  by_cases hcontrol : c.toNat < 0x20
  · obtain ⟨digits, h⟩ := exists_code (n := c.toNat) (by omega)
    exact ⟨_, .code h⟩
  · by_cases hletter : (c, c) ∈ letterEscapes
    · exact ⟨_, .letter hletter⟩
    · refine ⟨_, .plain ?_ ?_ (by omega)⟩
      · rintro rfl
        exact hletter (by decide)
      · rintro rfl
        exact hletter (by decide)

theorem exists_spells : ∀ cs : List Char, ∃ text, Spells cs text
  | [] => ⟨_, .nil⟩
  | c :: cs => by
    obtain ⟨text, h⟩ := exists_spelling c
    obtain ⟨rest, hs⟩ := exists_spells cs
    exact ⟨_, .cons h hs⟩

/-! ## Reading what was spelled -/

theorem hexDigit?_lower : ∀ d < 0x10, "0123456789abcdef".toList[d]?.bind hexDigit? = some d := by
  decide

theorem hexDigit?_upper : ∀ d < 0x10, "0123456789ABCDEF".toList[d]?.bind hexDigit? = some d := by
  decide

theorem IsHexDigit.lt {d : Nat} {c : Char} (h : IsHexDigit d c) : d < 0x10 := by
  rcases h with h | h
  · exact (List.getElem?_eq_some_iff.mp h).1
  · exact (List.getElem?_eq_some_iff.mp h).1

theorem hexDigit?_eq {d : Nat} {c : Char} (h : IsHexDigit d c) : hexDigit? c = some d := by
  have hd := h.lt
  rcases h with h | h
  · rw [← hexDigit?_lower d hd, h, Option.bind_some]
  · rw [← hexDigit?_upper d hd, h, Option.bind_some]

theorem hexEscape_code {n : Nat} {digits : List Char} (h : IsCode n digits) (rest : List Char) :
    hexEscape (digits ++ rest) = .ok (n, rest) := by
  obtain ⟨ha, hb, hc, hd⟩ := h
  have hn : ((n / 0x1000 * 16 + n / 0x100 % 0x10) * 16 + n / 0x10 % 0x10) * 16 + n % 0x10 = n := by
    omega
  simp only [List.cons_append, List.nil_append, hexEscape, hexDigit?_eq ha, hexDigit?_eq hb,
    hexDigit?_eq hc, hexDigit?_eq hd, hn]

theorem toNat_isValidChar (c : Char) : c.toNat < 0xD800 ∨ 0xDFFF < c.toNat ∧ c.toNat < 0x110000 :=
  c.valid

theorem codeEscape_code {c : Char} {digits : List Char} (h : IsCode c.toNat digits) (rest : List Char) :
    codeEscape (digits ++ rest) = .ok (c, rest) := by
  have hvalid := toNat_isValidChar c
  have hlow : isLowSurrogate c.toNat = false := by
    simp only [isLowSurrogate, decide_eq_false_iff_not]
    omega
  have hhigh : isHighSurrogate c.toNat = false := by
    simp only [isHighSurrogate, decide_eq_false_iff_not]
    omega
  simp only [codeEscape, hexEscape_code h, bind, Except.bind, hlow, hhigh, Bool.false_eq_true, if_false,
    Char.ofNat_toNat]
  rfl

theorem codeEscape_pair {c : Char} {high low : List Char} (hplane : 0x10000 ≤ c.toNat)
    (hhigh : IsCode (0xD800 + (c.toNat - 0x10000) / 0x400) high)
    (hlow : IsCode (0xDC00 + (c.toNat - 0x10000) % 0x400) low) (rest : List Char) :
    codeEscape (high ++ '\\' :: 'u' :: (low ++ rest)) = .ok (c, rest) := by
  have hvalid := toNat_isValidChar c
  have h₁ : isLowSurrogate (0xD800 + (c.toNat - 0x10000) / 0x400) = false := by
    simp only [isLowSurrogate, decide_eq_false_iff_not]
    omega
  have h₂ : isHighSurrogate (0xD800 + (c.toNat - 0x10000) / 0x400) = true := by
    simp only [isHighSurrogate, decide_eq_true_eq]
    omega
  have h₃ : isLowSurrogate (0xDC00 + (c.toNat - 0x10000) % 0x400) = true := by
    simp only [isLowSurrogate, decide_eq_true_eq]
    omega
  have hsum : 0x10000 + (0xD800 + (c.toNat - 0x10000) / 0x400 - 0xD800) * 0x400 +
      (0xDC00 + (c.toNat - 0x10000) % 0x400 - 0xDC00) = c.toNat := by
    omega
  have hsecond : lowSurrogate ('\\' :: 'u' :: (low ++ rest)) =
      .ok (0xDC00 + (c.toNat - 0x10000) % 0x400, rest) := by
    simp only [lowSurrogate, hexEscape_code hlow, bind, Except.bind, h₃, if_true]
    rfl
  simp only [codeEscape, hexEscape_code hhigh, bind, Except.bind, h₁, h₂, Bool.false_eq_true, if_false,
    if_true, hsecond, hsum, Char.ofNat_toNat]
  rfl

theorem escape_letter {l c : Char} (h : (l, c) ∈ letterEscapes) (rest : List Char) :
    escape (l :: rest) = .ok (c, rest) := by
  simp only [letterEscapes, List.mem_cons, Prod.mk.injEq, List.not_mem_nil, or_false] at h
  rcases h with ⟨rfl, rfl⟩ | ⟨rfl, rfl⟩ | ⟨rfl, rfl⟩ | ⟨rfl, rfl⟩ | ⟨rfl, rfl⟩ | ⟨rfl, rfl⟩ |
    ⟨rfl, rfl⟩ | ⟨rfl, rfl⟩ <;> rfl

theorem stringBody_escape {c : Char} {cs text rest : List Char} {size : Nat} {body : List Char}
    (h : escape text = .ok (c, cs)) (hs : stringBody size cs = .ok (body, rest)) :
    stringBody (size + 1) ('\\' :: text) = .ok (c :: body, rest) := by
  simp only [stringBody, show ('\\' : Char) ≠ '"' by decide, if_false, if_true, h, bind, Except.bind, hs]
  rfl

theorem stringBody_cons {c : Char} {text cs body rest : List Char} {size : Nat} (h : Spelling c text)
    (hs : stringBody size cs = .ok (body, rest)) :
    stringBody (size + 1) (text ++ cs) = .ok (c :: body, rest) := by
  cases h with
  | plain hquote hslash hcontrol =>
    have hc : ¬ c.toNat < 0x20 := by omega
    simp only [List.cons_append, List.nil_append, stringBody, hquote, hslash, hc, if_false, hs, bind,
      Except.bind]
    rfl
  | letter h => exact stringBody_escape (escape_letter h cs) hs
  | code h => exact stringBody_escape (codeEscape_code h cs) hs
  | pair hplane hhigh hlow =>
    have hcode := codeEscape_pair hplane hhigh hlow cs
    simp only [List.cons_append, List.append_assoc]
    exact stringBody_escape hcode hs

theorem stringBody_spells {cs text : List Char} (h : Spells cs text) {size : Nat} (hs : cs.length < size)
    (rest : List Char) : stringBody size (text ++ '"' :: rest) = .ok (cs, rest) := by
  induction h generalizing size with
  | nil =>
    cases size with
    | zero => simp at hs
    | succ size => simp [stringBody]
  | cons h _ ih =>
    cases size with
    | zero => simp at hs
    | succ size =>
      rw [List.append_assoc]
      exact stringBody_cons h (ih (by simpa using hs))

theorem Spelling.length_pos {c : Char} {text : List Char} (h : Spelling c text) : 0 < text.length := by
  cases h <;> simp

theorem Spells.length_le {cs text : List Char} (h : Spells cs text) : cs.length ≤ text.length := by
  induction h with
  | nil => exact Nat.le_refl _
  | cons h _ ih =>
    have hpos := h.length_pos
    simp only [List.length_cons, List.length_append]
    omega

structure Spelled (s : String) where
  text : List Char
  spells : Spells s.toList text

namespace Spelled

variable {s : String}

def quoted (k : Spelled s) : List Char := '"' :: k.text ++ ['"']

theorem quoted_append (k : Spelled s) (rest : List Char) :
    k.quoted ++ rest = '"' :: (k.text ++ '"' :: rest) := by
  simp [quoted]

theorem string_quoted (k : Spelled s) (rest : List Char) :
    Reader.string (k.quoted ++ rest) = .ok (s, rest) := by
  have hlen : s.toList.length < (k.quoted ++ rest).length := by
    have := k.spells.length_le
    simp only [quoted_append, List.length_cons, List.length_append]
    omega
  have htail : (k.quoted ++ rest).tail = k.text ++ '"' :: rest := by
    rw [quoted_append, List.tail_cons]
  simp only [Reader.string, htail, stringBody_spells k.spells hlen, bind, Except.bind, pure, Except.pure,
    String.ofList_toList]

end Spelled

end QuantumCircuit.Json
