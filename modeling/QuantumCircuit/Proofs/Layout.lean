import QuantumCircuit.Json.Form
import QuantumCircuit.Proofs.Spelling

/-!
# Blanks around marks

Blanks may stand before and after every mark of an object. Readers pass over the blanks in front of
what they read, so the members of a record are read alike however they are spaced and their keys are
spelled.
-/

namespace QuantumCircuit.Json

open Reader

variable {α β σ : Type}

/-! ## One step after another -/

theorem bind_ok {r : Reader α} {f : α → Reader β} {cs cs' : List Char} {a : α}
    (h : r cs = .ok (a, cs')) : (r >>= f) cs = f a cs' := by
  show r cs >>= _ = _
  rw [h]
  rfl

theorem bind_error {r : Reader α} {f : α → Reader β} {cs : List Char} {e : ReadError}
    (h : r cs = .error e) : (r >>= f) cs = .error e := by
  show r cs >>= _ = _
  rw [h]
  rfl

/-! ## Blanks -/

structure Gap where
  chars : List Char
  blank : ∀ c ∈ chars, c ∈ [' ', '\t', '\n', '\r']

def Gap.empty : Gap := ⟨[], by simp⟩

theorem Gap.dropWhile_append (g : Gap) (cs : List Char) :
    (g.chars ++ cs).dropWhile isBlank = cs.dropWhile isBlank := by
  refine List.dropWhile_append_of_pos fun c hc => ?_
  have hblank := g.blank c hc
  simp only [List.mem_cons, List.not_mem_nil, or_false] at hblank
  obtain rfl | rfl | rfl | rfl := hblank <;> rfl

theorem peek_gap (g : Gap) (cs : List Char) : peek (g.chars ++ cs) = peek cs := by
  simp only [peek, g.dropWhile_append]

theorem peek_bind_gap (f : Option Char → Reader α) (g : Gap) (cs : List Char) :
    (peek >>= f) (g.chars ++ cs) = (peek >>= f) cs := by
  simp only [bind, StateT.bind, peek_gap]

theorem peek_cons {c : Char} (hc : isBlank c = false) (cs : List Char) :
    peek (c :: cs) = .ok (some c, c :: cs) := by
  simp [peek, hc]

theorem advance_cons (c : Char) (cs : List Char) : advance (c :: cs) = .ok ((), cs) := rfl

theorem get_eq (cs : List Char) : (get : Reader (List Char)) cs = .ok (cs, cs) := rfl

/-! ## Marks -/

def lead (first : Bool) : List Char := if first then [] else [',']

theorem nextMember_end (first : Bool) (g : Gap) (rest : List Char) :
    nextMember first (g.chars ++ '}' :: rest) = .ok (false, '}' :: rest) := by
  refine (peek_bind_gap _ g _).trans ?_
  cases first <;> rfl

theorem nextMember_lead (first : Bool) (g before : Gap) (rest : List Char) :
    nextMember first (g.chars ++ (lead first ++ (before.chars ++ '"' :: rest))) =
      .ok (true, '"' :: rest) := by
  refine (peek_bind_gap _ g _).trans ?_
  cases first with
  | true => exact peek_bind_gap _ before ('"' :: rest)
  | false =>
    rw [show lead false ++ (before.chars ++ '"' :: rest) = ',' :: (before.chars ++ '"' :: rest) from rfl,
      bind_ok (peek_cons (by decide) _)]
    simp only [show (',' : Char) ≠ '}' by decide, if_false, if_true, Bool.false_eq_true]
    rw [bind_ok (advance_cons _ _), peek_bind_gap]
    rfl

theorem colon_cons (rest : List Char) : colon (':' :: rest) = .ok ((), rest) := rfl

theorem colon_gap (g : Gap) (rest : List Char) : colon (g.chars ++ ':' :: rest) = .ok ((), rest) :=
  (peek_bind_gap _ g _).trans (colon_cons rest)

theorem bool_gap (g : Gap) (b : Bool) (rest : List Char) :
    Reader.bool (g.chars ++ (Form.write b ++ rest)) = .ok (b, rest) := by
  refine (peek_bind_gap _ g _).trans ?_
  cases b <;> rfl

theorem Field.read_bool (name : String) (get : σ → Option Bool) (set : σ → Bool → σ) (s : σ) (g : Gap)
    (b : Bool) (rest : List Char) :
    (Field.of name get set).read s (g.chars ++ (Form.write b ++ rest)) = .ok (set s b, rest) :=
  bind_ok (bool_gap g b rest)

/-! ## The members of a record -/

namespace Record

variable (r : Record σ α) (size : Nat) (first : Bool) {s s' : σ} (g before after : Gap)
  {key : String} (k : Spelled key) (rest : List Char)

theorem members_end (s : σ) :
    r.members (size + 1) first s (g.chars ++ '}' :: rest) = .ok (s, '}' :: rest) := by
  rw [members, bind_ok (nextMember_end first g rest)]
  rfl

theorem members_key :
    r.members (size + 1) first s (g.chars ++ (lead first ++ (before.chars ++ (k.quoted ++ rest)))) =
      (match r.fields.find? (·.name == key) with
        | some f =>
          if f.isSet s then refuse (.duplicateField key)
          else do
            colon
            r.members size false (← f.read s)
        | none =>
          if r.closed then refuse (.unknownField key (r.fields.map (·.name)))
          else do
            colon
            skipValue
            r.members size false s : Reader σ) rest := by
  rw [members, k.quoted_append, bind_ok (nextMember_lead first g before _), ← k.quoted_append]
  simp only [if_true]
  exact bind_ok (k.string_quoted rest)

theorem members_known {f : Field σ} {value : List Char}
    (known : r.fields.find? (·.name == key) = some f) (unset : f.isSet s = false)
    (hread : f.read s value = .ok (s', rest)) :
    r.members (size + 1) first s
      (g.chars ++ (lead first ++ (before.chars ++ (k.quoted ++ (after.chars ++ ':' :: value))))) =
        r.members size false s' rest := by
  rw [members_key, known]
  simp only [unset, Bool.false_eq_true, if_false]
  rw [bind_ok (colon_gap after value), bind_ok hread]

theorem members_repeated {f : Field σ} (known : r.fields.find? (·.name == key) = some f)
    (set : f.isSet s) :
    r.members (size + 1) first s (g.chars ++ (lead first ++ (before.chars ++ (k.quoted ++ rest)))) =
      .error (.duplicateField key) := by
  rw [members_key, known]
  simp only [set, if_true]
  rfl

theorem members_unknown (closed : r.closed) (unknown : r.fields.find? (·.name == key) = none) :
    r.members (size + 1) first s (g.chars ++ (lead first ++ (before.chars ++ (k.quoted ++ rest)))) =
      .error (.unknownField key (r.fields.map (·.name))) := by
  rw [members_key, unknown]
  simp only [closed, if_true]
  rfl

theorem read_brace (cs : List Char) :
    r.read (g.chars ++ '{' :: cs) = (do
      let s ← r.members (cs.length + 1) true r.blank
      advance
      r.build s : Reader α) cs := by
  refine (peek_bind_gap _ g _).trans ?_
  rfl

end Record

end QuantumCircuit.Json
