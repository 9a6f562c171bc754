import QuantumCircuit.Proofs.Layout

/-!
# Reading what was written

A reader reads a text back if it gives the value that the text was written for and stops where
the text stops, whatever comes next. After a value that is the end, a comma or the mark that
closes an array or an object.
-/

namespace QuantumCircuit.Json

open Reader

variable {α β σ : Type}

def Ends (rest : List Char) : Prop := ∀ c ∈ rest.head?, c = ',' ∨ c = ']' ∨ c = '}'

theorem ends_nil : Ends [] := by
  simp [Ends]

theorem ends_cons {c : Char} (rest : List Char) (h : c = ',' ∨ c = ']' ∨ c = '}') :
    Ends (c :: rest) := by
  simpa [Ends] using h

def opens (c : Char) : Bool := !isBlank c && c != ']'

structure Reads (r : Reader α) (text : List Char) (a : α) : Prop where
  opening : ∃ c cs, text = c :: cs ∧ opens c
  value : ∀ rest, Ends rest → r (text ++ rest) = .ok (a, rest)

theorem Reads.length_pos {r : Reader α} {text : List Char} {a : α} (h : Reads r text a) :
    0 < text.length := by
  obtain ⟨c, cs, rfl, -⟩ := h.opening
  simp

theorem Reads.map {r : Reader α} {text : List Char} {a : α} (h : Reads r text a) (f : α → β) :
    Reads (r >>= fun a => pure (f a)) text (f a) where
  opening := h.opening
  value rest hr := bind_ok (h.value rest hr)

/-! ## Marks -/

theorem opens_iff {c : Char} : opens c ↔ isBlank c = false ∧ c ≠ ']' := by
  simp [opens]

theorem nextElement_end (first : Bool) (rest : List Char) :
    nextElement first (']' :: rest) = .ok (false, ']' :: rest) := by
  cases first <;> rfl

theorem nextElement_lead (first : Bool) {c : Char} (hc : opens c) (cs : List Char) :
    nextElement first (lead first ++ c :: cs) = .ok (true, c :: cs) := by
  obtain ⟨hb, he⟩ := opens_iff.mp hc
  unfold nextElement
  cases first with
  | true =>
    rw [show lead true ++ c :: cs = c :: cs from rfl, bind_ok (peek_cons hb cs)]
    simp only [he, if_false, if_true]
    rfl
  | false =>
    rw [show lead false ++ c :: cs = ',' :: c :: cs from rfl,
      bind_ok (peek_cons (by decide) _)]
    simp only [show (',' : Char) ≠ ']' by decide, if_false, if_true, Bool.false_eq_true]
    rw [bind_ok (advance_cons _ _), bind_ok (peek_cons hb cs)]
    simp only
    rfl

/-! ## Names -/

def isPlain (c : Char) : Bool := c != '"' && c != '\\' && 0x20 ≤ c.toNat

def plain (s : String) : Bool := s.toList.all isPlain

theorem spells_plain {cs : List Char} (h : ∀ c ∈ cs, isPlain c) : Spells cs cs := by
  induction cs with
  | nil => exact .nil
  | cons c cs ih =>
    have hc := h c List.mem_cons_self
    simp only [isPlain, Bool.and_eq_true, bne_iff_ne, ne_eq, decide_eq_true_eq] at hc
    exact .cons (.plain hc.1.1 hc.1.2 hc.2) (ih fun d hd => h d (List.mem_cons_of_mem _ hd))

def Spelled.self {s : String} (h : plain s) : Spelled s :=
  ⟨s.toList, spells_plain (by simpa [plain] using h)⟩

theorem string_name {s : String} (h : plain s) (rest : List Char) :
    Reader.string (name s ++ rest) = .ok (s, rest) :=
  (Spelled.self h).string_quoted rest

theorem peek_name (s : String) (rest : List Char) :
    peek (name s ++ rest) = .ok (some '"', name s ++ rest) :=
  peek_cons (by decide) _

/-! ## Numbers -/

section Digits

open Decimal

theorem digit?_digitChar : ∀ d < 10, digit? (digitChar d) = some d := by
  decide

theorem opens_digitChar : ∀ d < 10, opens (digitChar d) ∧ digitChar d ≠ '-' := by
  decide

theorem digits_eq_cons (n : Nat) : ∃ d ds, d < 10 ∧ digits n = digitChar d :: ds ∧
    (d = 0 → n = 0 ∧ ds = []) ∧ ∀ limit taken rest, n ≤ limit →
      absorb limit d taken (ds ++ rest) = absorb limit n (taken + ds.length) rest := by
  fun_induction digits n with
  | case1 n hn =>
    exact ⟨n, [], hn, rfl, fun h => ⟨h, rfl⟩, fun _ _ _ _ => rfl⟩
  | case2 n hn ih =>
    obtain ⟨d, ds, hd, heq, hz, habs⟩ := ih
    refine ⟨d, ds ++ [digitChar (n % 10)], hd, by simp [heq], fun h => ?_, ?_⟩
    · have := (hz h).1
      omega
    · -- the number that the other digits make takes in the last one
      intro limit taken rest hle
      have hv : n / 10 * 10 + n % 10 = n := by omega
      rw [List.append_assoc, habs limit taken _ (by omega), List.singleton_append, absorb,
        digit?_digitChar _ (by omega)]
      simp only [hv, hle, if_true, List.length_append, List.length_singleton, Nat.add_assoc]

theorem startsWithDigit_of_ends {rest : List Char} (h : Ends rest) :
    startsWithDigit rest = false := by
  cases rest with
  | nil => rfl
  | cons c cs => obtain rfl | rfl | rfl := h c rfl <;> rfl

theorem hasDecimalPart_of_ends {rest : List Char} (h : Ends rest) :
    hasDecimalPart rest = false := by
  cases rest with
  | nil => rfl
  | cons c cs => obtain rfl | rfl | rfl := h c rfl <;> rfl

theorem absorb_of_ends {rest : List Char} (h : Ends rest) (limit value taken : Nat) :
    absorb limit value taken rest = (value, taken, rest) := by
  cases rest with
  | nil => rfl
  | cons c cs =>
    have hc : digit? c = none := by
      simpa [startsWithDigit, isDigit] using startsWithDigit_of_ends h
    simp [absorb, hc]

theorem afterInteger_of_ends {rest : List Char} (h : Ends rest) (n : Nat) :
    afterInteger false n rest = .ok (.integer n, rest) := by
  simp [afterInteger, hasDecimalPart_of_ends h]

theorem unsigned_digits {n : Nat} (hn : n ≤ maxSignificand) {rest : List Char} (h : Ends rest) :
    unsigned false (digits n ++ rest) = .ok (.integer n, rest) := by
  obtain ⟨d, ds, hd, heq, hz, habs⟩ := digits_eq_cons n
  rw [heq, List.cons_append, unsigned, digit?_digitChar d hd]
  cases d with
  | zero =>
    -- a leading zero stands alone
    obtain ⟨rfl, rfl⟩ := hz rfl
    simp only [List.nil_append, startsWithDigit_of_ends h]
    exact afterInteger_of_ends h 0
  | succ d =>
    simp only [habs _ 0 rest hn, absorb_of_ends h, startsWithDigit_of_ends h]
    exact afterInteger_of_ends h n

theorem reads_natural {n bound : Nat} (hn : n < bound) (hb : bound ≤ UInt64.size)
    (expected : String) : Reads (natural bound expected) (digits n) n := by
  obtain ⟨d, ds, hd, heq, -, -⟩ := digits_eq_cons n
  obtain ⟨hopen, hminus⟩ := opens_digitChar d hd
  refine ⟨⟨_, _, heq, hopen⟩, fun rest hr => ?_⟩
  have hnum : number (digits n ++ rest) = .ok (.integer n, rest) := by
    rw [← unsigned_digits (by unfold maxSignificand; omega) hr, heq, List.cons_append, number]
    intro cs h
    exact hminus (List.cons.inj h).1
  have hany : anyNumber expected (digits n ++ rest) = .ok (.integer n, rest) := by
    have hdig : isDigit (digitChar d) := by simp [isDigit, digit?_digitChar d hd]
    have hpeek : peek (digits n ++ rest) = .ok (some (digitChar d), digits n ++ rest) := by
      rw [heq]
      exact peek_cons (opens_iff.mp hopen).1 _
    rw [anyNumber, bind_ok hpeek]
    simpa only [hdig, or_true, if_true] using hnum
  rw [natural, bind_ok hany]
  simp only [Int.natCast_nonneg, Int.ofNat_lt, hn, and_self, if_true, Int.toNat_natCast]
  rfl

end Digits

theorem reads_word32 (n : UInt32) : Reads word32 (Form.write n) n := by
  have h := (reads_natural n.toNat_lt_size (by decide) "u32").map UInt32.ofNat
  rwa [UInt32.ofNat_toNat] at h

theorem reads_word64 (n : UInt64) : Reads word64 (Form.write n) n := by
  have h := (reads_natural n.toNat_lt_size (by decide) "u64").map UInt64.ofNat
  rwa [UInt64.ofNat_toNat] at h

/-! ## Arrays -/

def listed : (first : Bool) → List (List Char) → List Char
  | _, [] => []
  | first, item :: items => lead first ++ item ++ listed false items

theorem commaSeparated_eq (items : List (List Char)) :
    commaSeparated items = listed true items := by
  fun_induction commaSeparated items with
  | case1 => rfl
  | case2 item => simp [listed, lead]
  | case3 item items hne ih =>
    obtain ⟨next, items, rfl⟩ := List.exists_cons_of_ne_nil hne
    simp [ih, listed, lead]

theorem array_append (items : List (List Char)) (rest : List Char) :
    array items ++ rest = '[' :: (listed true items ++ ']' :: rest) := by
  simp [array, commaSeparated_eq]

/-- There are no more items than characters, so the length of a text bounds their number. -/
theorem length_lt_listed {items : List (List Char)} (h : ∀ item ∈ items, 0 < item.length)
    (first : Bool) (rest : List Char) :
    items.length < (listed first items ++ rest).length + 1 := by
  induction items generalizing first with
  | nil => simp
  | cons item items ih =>
    have hi := h item List.mem_cons_self
    have := ih (fun x hx => h x (List.mem_cons_of_mem _ hx)) false
    simp only [listed, List.length_append, List.length_cons] at this ⊢
    omega

theorem ends_listed (items : List (List Char)) {c : Char} (hc : c = ']' ∨ c = '}')
    (rest : List Char) : Ends (listed false items ++ c :: rest) := by
  cases items with
  | nil => exact ends_cons rest (.inr hc)
  | cons item items => exact ends_cons _ (.inl rfl)

theorem elements_listed {item : Reader α} {write : α → List Char} {as : List α}
    (h : ∀ a ∈ as, Reads item (write a) a) {size : Nat} (hs : as.length < size) (first : Bool)
    (rest : List Char) :
    elements item size first (listed first (as.map write) ++ ']' :: rest) =
      .ok (as, ']' :: rest) := by
  induction as generalizing size first with
  | nil =>
    cases size with
    | zero => simp at hs
    | succ size =>
      rw [elements, show listed first ([].map write) ++ ']' :: rest = ']' :: rest from rfl,
        bind_ok (nextElement_end first rest)]
      rfl
  | cons a as ih =>
    cases size with
    | zero => simp at hs
    | succ size =>
      have ha := h a List.mem_cons_self
      have htail := ih (fun b hb => h b (List.mem_cons_of_mem _ hb)) (by simpa using hs) false
      -- what follows the item is a comma or the end, so its reader stops there
      have hitem := ha.value _ (ends_listed (as.map write) (.inl rfl) rest)
      obtain ⟨c, cs, heq, hc⟩ := ha.opening
      have hnext := nextElement_lead first hc (cs ++ (listed false (as.map write) ++ ']' :: rest))
      rw [← List.cons_append, ← heq] at hnext
      simp only [List.map_cons, listed, List.append_assoc, elements]
      rw [bind_ok hnext]
      simp only [if_true]
      rw [bind_ok hitem, bind_ok htail]
      rfl

theorem reads_list {item : Reader α} {write : α → List Char} {as : List α}
    (h : ∀ a ∈ as, Reads item (write a) a) : Reads (list item) (array (as.map write)) as := by
  refine ⟨⟨_, _, rfl, by decide⟩, fun rest _ => ?_⟩
  have hpos : ∀ item ∈ as.map write, 0 < item.length := by
    simpa using fun a ha => (h a ha).length_pos
  have hlen := length_lt_listed hpos true (']' :: rest)
  rw [List.length_map] at hlen
  rw [array_append, list, bind_ok (peek_cons (by decide) _)]
  simp only
  rw [bind_ok (advance_cons _ _), bind_ok (get_eq _),
    bind_ok (elements_listed h hlen true rest)]
  rfl

/-! ## Records -/

def member (m : String × List Char) : List Char := name m.1 ++ ':' :: m.2

theorem object_append (ms : List (String × List Char)) (rest : List Char) :
    object ms ++ rest = '{' :: (listed true (ms.map member) ++ '}' :: rest) := by
  simp only [object, commaSeparated_eq, List.cons_append, List.append_assoc, List.nil_append]
  rfl

/-- The members fill the record that has been read as far as the first state says, and leave
the last. -/
inductive Fills (r : Record σ α) : σ → List (String × List Char) → σ → Prop
  | done (s : σ) : Fills r s [] s
  | field {s s' s'' : σ} {key : String} {text : List Char} {ms : List (String × List Char)}
      (f : Field σ) (hplain : plain key) (known : r.fields.find? (·.name == key) = some f)
      (unset : f.isSet s = false)
      (reads : Reads (f.read s) text s') (more : Fills r s' ms s'') :
      Fills r s ((key, text) :: ms) s''

theorem members_listed {r : Record σ α} {s s' : σ} {ms : List (String × List Char)}
    (h : Fills r s ms s') {size : Nat} (hs : ms.length < size) (first : Bool) (rest : List Char) :
    r.members size first s (listed first (ms.map member) ++ '}' :: rest) =
      .ok (s', '}' :: rest) := by
  induction h generalizing size first with
  | done s =>
    cases size with
    | zero => simp at hs
    | succ size => exact r.members_end size first .empty rest s
  | @field s s' s'' key text ms f hplain known unset reads more ih =>
    cases size with
    | zero => simp at hs
    | succ size =>
      have htail := ih (by simpa using hs) false
      have hread := reads.value _ (ends_listed (ms.map member) (.inr rfl) rest)
      simp only [List.map_cons, listed, member, List.append_assoc, List.cons_append]
      exact (r.members_known size first .empty .empty .empty (.self hplain) _ known unset hread).trans
        htail

theorem reads_object {r : Record σ α} {s : σ} {ms : List (String × List Char)} {a : α}
    (h : Fills r r.blank ms s) (hb : r.build s = .ok a) : Reads r.read (object ms) a := by
  refine ⟨⟨_, _, rfl, by decide⟩, fun rest _ => ?_⟩
  have hpos : ∀ item ∈ ms.map member, 0 < item.length := by
    rintro _ hm
    obtain ⟨m, -, rfl⟩ := List.mem_map.mp hm
    simp [member, name]
  have hlen := length_lt_listed hpos true ('}' :: rest)
  rw [List.length_map] at hlen
  rw [object_append]
  refine (r.read_brace .empty _).trans ?_
  rw [bind_ok (members_listed h hlen true rest), bind_ok (advance_cons _ _), hb]
  rfl

/-! ## Variants -/

theorem named_name {vs : List (Variant α)} {tag : String} {v : Variant α}
    (hplain : plain tag) (known : vs.find? (·.name == tag) = some v)
    (rest : List Char) : Variant.named vs (name tag ++ rest) = .ok (v, rest) := by
  rw [Variant.named, bind_ok (string_name hplain rest)]
  simp only [known]
  rfl

theorem reads_name {vs : List (Variant α)} {tag : String} {v : Variant α} {a : α}
    (hplain : plain tag) (known : vs.find? (·.name == tag) = some v)
    (ha : v.payload = .none a) : Reads (Variant.read vs) (name tag) a := by
  refine ⟨⟨_, _, rfl, by decide⟩, fun rest _ => ?_⟩
  rw [Variant.read, bind_ok (peek_name tag rest)]
  simp only
  rw [bind_ok (named_name hplain known rest), Variant.alone, ha]
  rfl

theorem reads_tagged {vs : List (Variant α)} {tag : String} {v : Variant α}
    {content : List Char} {a : α} (hplain : plain tag)
    (known : vs.find? (·.name == tag) = some v) (ha : Reads v.content content a) :
    Reads (Variant.read vs) (tagged tag content) a := by
  refine ⟨⟨_, _, rfl, by decide⟩, fun rest _ => ?_⟩
  have htext : tagged tag content ++ rest =
      '{' :: (name tag ++ ':' :: (content ++ '}' :: rest)) := by
    simp [tagged, object, commaSeparated]
  rw [htext, Variant.read, bind_ok (peek_cons (by decide) _)]
  simp only
  rw [bind_ok (advance_cons _ _), bind_ok (peek_name tag _)]
  simp only
  rw [bind_ok (named_name hplain known _), bind_ok (colon_cons _),
    bind_ok (ha.value _ (ends_cons rest (.inr (.inr rfl)))), bind_ok (peek_cons (by decide) _)]
  rfl

end QuantumCircuit.Json
