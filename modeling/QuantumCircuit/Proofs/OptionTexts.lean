import QuantumCircuit.Json.Cleanup
import QuantumCircuit.Proofs.ReadBack
import QuantumCircuit.Proofs.Wiring

/-!
# Texts of options

The options of a cleanup stand in an object, in any order, with any blanks between its marks and with
names spelled in any way. Such a text is read if every name is that of an option and none comes twice,
and refused at the first member where this fails. What is left out keeps its default.
-/

namespace QuantumCircuit

open Json

/-! ## Objects of flags -/

structure FlagMember where
  key : String
  value : Bool
  spelled : Spelled key
  beforeKey : Gap
  afterKey : Gap
  beforeValue : Gap
  afterValue : Gap

def FlagMember.text (m : FlagMember) : List Char :=
  m.beforeKey.chars ++ (m.spelled.quoted ++ (m.afterKey.chars ++ ':' ::
    (m.beforeValue.chars ++ (Form.write m.value ++ m.afterValue.chars))))

structure FlagObject where
  before : Gap
  inner : Gap
  entries : List FlagMember
  after : Gap

namespace FlagObject

def text (d : FlagObject) : String :=
  String.ofList (d.before.chars ++ '{' :: (d.inner.chars ++
    (commaSeparated (d.entries.map FlagMember.text) ++ '}' :: d.after.chars)))

def members (d : FlagObject) : List (String × Bool) := d.entries.map fun m => (m.key, m.value)

theorem exists_members (ms : List (String × Bool)) : ∃ d : FlagObject, d.members = ms := by
  have hentries : ∃ entries : List FlagMember, entries.map (fun m => (m.key, m.value)) = ms := by
    induction ms with
    | nil => exact ⟨[], rfl⟩
    | cons m ms ih =>
      obtain ⟨entries, rfl⟩ := ih
      obtain ⟨text, h⟩ := exists_spells m.1.toList
      exact ⟨⟨m.1, m.2, ⟨text, h⟩, .empty, .empty, .empty, .empty⟩ :: entries, rfl⟩
  obtain ⟨entries, h⟩ := hentries
  exact ⟨⟨.empty, .empty, entries, .empty⟩, h⟩

end FlagObject

/-! ## What the members ask for -/

namespace CleanupOptions

def switches : List (String × (CleanupOptions → Bool)) :=
  [("consolidate_resets", (·.mergeResets)), ("remove_final_reset", (·.trimResets)),
    ("verify_integrity", (·.check))]

def names : List String := switches.map Prod.fst

theorem mem_names {key : String} : key ∈ names ↔
    key = "consolidate_resets" ∨ key = "remove_final_reset" ∨ key = "verify_integrity" := by
  simp [names, switches]

structure Admits (ms : List (String × Bool)) : Prop where
  known : ∀ m ∈ ms, m.1 ∈ names
  once : (ms.map Prod.fst).Nodup

/-- Every option has the value that is listed for it, and its default if none is. -/
def Takes (o : CleanupOptions) (ms : List (String × Bool)) : Prop :=
  ∀ f ∈ switches, (f.1, f.2 o) ∈ ms ∨ f.1 ∉ ms.map Prod.fst ∧ f.2 o = f.2 {}

/-- The fault of the first member whose key is unknown or among those seen before it. -/
def fault? (seen : List String) : List (String × Bool) → Option ReadError
  | [] => none
  | m :: ms =>
    if m.1 ∉ names then some (.unknownField m.1 names)
    else if m.1 ∈ seen then some (.duplicateField m.1)
    else fault? (seen ++ [m.1]) ms

def unlessFault {ε α : Type} : Option ε → α → Except ε α
  | some e, _ => .error e
  | none, a => .ok a

theorem admits_cons {m : String × Bool} {ms : List (String × Bool)} :
    Admits (m :: ms) ↔ m.1 ∈ names ∧ m.1 ∉ ms.map Prod.fst ∧ Admits ms := by
  constructor
  · intro h
    have honce := List.nodup_cons.mp h.once
    exact ⟨h.known m List.mem_cons_self, honce.1, fun x hx => h.known x (List.mem_cons_of_mem _ hx),
      honce.2⟩
  · rintro ⟨hname, hnew, h⟩
    exact ⟨List.forall_mem_cons.mpr ⟨hname, h.known⟩, List.nodup_cons.mpr ⟨hnew, h.once⟩⟩

theorem fault?_eq_none (ms : List (String × Bool)) (seen : List String) :
    fault? seen ms = none ↔ Admits ms ∧ ∀ key ∈ ms.map Prod.fst, key ∉ seen := by
  induction ms generalizing seen with
  | nil => simp [fault?, Admits.mk]
  | cons m ms ih =>
    unfold fault?
    rw [admits_cons]
    by_cases hname : m.1 ∈ names
    · by_cases hseen : m.1 ∈ seen
      · simp [hname, hseen]
      · simp only [hname, hseen, not_true, if_false, ih, List.map_cons, List.forall_mem_cons,
          List.mem_append, List.mem_singleton, not_or]
        grind
    · simp [hname]

def Parts.ofMembers (ms : List (String × Bool)) : Parts where
  mergeResets := ms.lookup "consolidate_resets"
  trimResets := ms.lookup "remove_final_reset"
  check := ms.lookup "verify_integrity"

def ofMembers (ms : List (String × Bool)) : CleanupOptions where
  mergeResets := (ms.lookup "consolidate_resets").getD ({} : CleanupOptions).mergeResets
  trimResets := (ms.lookup "remove_final_reset").getD ({} : CleanupOptions).trimResets
  check := (ms.lookup "verify_integrity").getD ({} : CleanupOptions).check

theorem eq_getD_lookup_iff {ms : List (String × Bool)} (hms : (ms.map Prod.fst).Nodup) {key : String}
    {b d : Bool} :
    b = (ms.lookup key).getD d ↔ (key, b) ∈ ms ∨ key ∉ ms.map Prod.fst ∧ b = d := by
  cases hlookup : ms.lookup key with
  | none =>
    have hnot := lookup_eq_none_iff_not_mem.mp hlookup
    have hmem : (key, b) ∉ ms := fun h => hnot (List.mem_map_of_mem h)
    simp [hnot, hmem]
  | some v =>
    have hmem := (lookup_eq_some_iff_mem hms).mp hlookup
    have hkey : key ∈ ms.map Prod.fst := List.mem_map_of_mem hmem
    simp [hkey, ← lookup_eq_some_iff_mem hms, hlookup, eq_comm]

theorem takes_iff {ms : List (String × Bool)} (hms : (ms.map Prod.fst).Nodup) {o : CleanupOptions} :
    o.Takes ms ↔ o = ofMembers ms := by
  cases o
  simp only [Takes, switches, List.mem_cons, List.not_mem_nil, or_false, forall_eq_or_imp, forall_eq,
    ← eq_getD_lookup_iff hms, ofMembers, mk.injEq]

/-! ## Reading member by member -/

theorem find?_field_eq_none {key : String} (h : key ∉ names) :
    record.fields.find? (·.name == key) = none := by
  rw [mem_names, not_or, not_or] at h
  simp [record, Field.of, Ne.symm h.1, Ne.symm h.2.1, Ne.symm h.2.2]

theorem exists_field {key : String} (h : key ∈ names) :
    ∃ f, record.fields.find? (·.name == key) = some f ∧ ∀ ms,
      f.isSet (.ofMembers ms) = (ms.lookup key).isSome ∧
      (ms.lookup key = none → ∀ (g : Gap) (b : Bool) (rest : List Char),
        f.read (.ofMembers ms) (g.chars ++ (Form.write b ++ rest)) =
          .ok (.ofMembers (ms ++ [(key, b)]), rest)) := by
  obtain rfl | rfl | rfl := mem_names.mp h
  all_goals
    refine ⟨_, rfl, fun ms => ⟨rfl, fun hnone g b rest => ?_⟩⟩
    refine (Field.read_bool _ _ _ _ g b rest).trans ?_
    simp [Parts.ofMembers, List.lookup_append, List.lookup_cons, hnone]

theorem members_flags (entries : List FlagMember) (done : List (String × Bool)) {size : Nat}
    (hsize : entries.length < size) (first : Bool) (g : Gap) (rest : List Char) :
    record.members size first (.ofMembers done)
      (g.chars ++ (listed first (entries.map FlagMember.text) ++ '}' :: rest)) =
      unlessFault (fault? (done.map Prod.fst) (entries.map fun m => (m.key, m.value)))
        (.ofMembers (done ++ entries.map fun m => (m.key, m.value)), '}' :: rest) := by
  -- the members still to come are what the induction is on, those before them are in `done`
  induction entries generalizing done size first g with
  | nil =>
    cases size with
    | zero => simp at hsize
    | succ size =>
      simpa [fault?, unlessFault, listed] using record.members_end size first g rest (.ofMembers done)
  | cons m entries ih =>
    cases size with
    | zero => simp at hsize
    | succ size =>
      simp only [List.map_cons, listed, FlagMember.text, List.append_assoc, List.cons_append, fault?]
      by_cases hname : m.key ∈ names
      · obtain ⟨f, hf, hspec⟩ := exists_field hname
        obtain ⟨hset, hread⟩ := hspec done
        cases hlookup : done.lookup m.key with
        | some b =>
          have hseen : m.key ∈ done.map Prod.fst := by
            by_contra hnot
            simp [lookup_eq_none_iff_not_mem.mpr hnot] at hlookup
          rw [hlookup, Option.isSome_some] at hset
          rw [record.members_repeated size first g m.beforeKey m.spelled _ hf hset]
          simp [hname, hseen, unlessFault]
        | none =>
          have hnew := lookup_eq_none_iff_not_mem.mp hlookup
          rw [hlookup, Option.isSome_none] at hset
          have htail := ih (done ++ [(m.key, m.value)]) (by simpa using hsize) false m.afterValue
          rw [record.members_known size first g m.beforeKey m.afterKey m.spelled _ hf hset
            (hread hlookup m.beforeValue m.value _), htail]
          simp [hname, hnew]
      · rw [record.members_unknown size first g m.beforeKey m.spelled _ rfl (find?_field_eq_none hname)]
        simp only [hname, not_false_eq_true, if_true]
        rfl

theorem read_flags (d : FlagObject) : record.read d.text.toList =
    unlessFault (fault? [] d.members) (ofMembers d.members, d.after.chars) := by
  have hpos : ∀ item ∈ d.entries.map FlagMember.text, 0 < item.length := by
    intro item hitem
    obtain ⟨m, -, rfl⟩ := List.mem_map.mp hitem
    simp only [FlagMember.text, List.length_append, List.length_cons]
    omega
  have hsize := length_lt_listed hpos true ('}' :: d.after.chars)
  rw [List.length_map] at hsize
  rw [FlagObject.text, String.toList_ofList, commaSeparated_eq, record.read_brace]
  have hmembers := members_flags d.entries []
    (Nat.lt_of_lt_of_le hsize (Nat.succ_le_succ (List.sublist_append_right d.inner.chars _).length_le))
    true d.inner d.after.chars
  change _ = unlessFault (fault? [] d.members) (Parts.ofMembers d.members, _) at hmembers
  cases h : fault? [] d.members with
  | some e =>
    rw [h] at hmembers
    exact bind_error hmembers
  | none =>
    rw [h] at hmembers
    exact bind_ok hmembers

theorem ofJson_text (d : FlagObject) : ofJson d.text =
    (unlessFault (fault? [] d.members) (ofMembers d.members)).mapError
      (.badConfiguration ·.message) := by
  have hread := read_flags d
  have hafter : d.after.chars.dropWhile Reader.isBlank = [] := by
    simpa using d.after.dropWhile_append []
  unfold ofJson decode Reader.parse
  simp only [show (Form.read : Reader CleanupOptions) = record.read from rfl, hread]
  cases fault? [] d.members with
  | some e => rfl
  | none =>
    simp only [unlessFault, bind, Except.bind, hafter]
    rfl

theorem ofJson_of_admits {d : FlagObject} (h : Admits d.members) :
    ofJson d.text = .ok (ofMembers d.members) := by
  have hnone : fault? [] d.members = none := (fault?_eq_none _ _).mpr ⟨h, by simp⟩
  rw [ofJson_text, hnone]
  rfl

theorem exists_refusal {d : FlagObject} (h : ¬ Admits d.members) :
    ∃ reason, ofJson d.text = .error (.badConfiguration reason) := by
  have hsome : fault? [] d.members ≠ none := fun hnone => h ((fault?_eq_none _ _).mp hnone).1
  obtain ⟨e, he⟩ := Option.ne_none_iff_exists'.mp hsome
  exact ⟨e.message, by rw [ofJson_text, he]; rfl⟩

end CleanupOptions

open CleanupOptions

/-- Options are read from a text of flags just if every key is the name of an option and none comes
twice. They take the values listed for them, in whatever order and with whatever blanks, and their
defaults otherwise. All other texts of flags are refused. -/
theorem options_are_read_exactly :
    (∀ ms : List (String × Bool), ∃ d : FlagObject, d.members = ms) ∧
      ∀ d : FlagObject,
        ((∃ o, ofJson d.text = .ok o) ↔ Admits d.members) ∧
        (∀ o, ofJson d.text = .ok o ↔ Admits d.members ∧ o.Takes d.members) ∧
        ((∃ reason, ofJson d.text = .error (.badConfiguration reason)) ↔ ¬ Admits d.members) := by
  refine ⟨FlagObject.exists_members, fun d => ?_⟩
  by_cases h : Admits d.members
  · rw [ofJson_of_admits h]
    refine ⟨by simp [h], fun o => ?_, by simp [h]⟩
    rw [takes_iff h.once, Except.ok.injEq, eq_comm]
    simp [h]
  · obtain ⟨reason, hreason⟩ := exists_refusal h
    rw [hreason]
    simp [h]

example : (ofJson "\x7b\t\"verify\\u005Fintegrity\" : true ,\n\"consolidate_resets\":false\x7d ").toOption =
    some { mergeResets := false, check := true } := by
  decide +kernel

end QuantumCircuit
