import QuantumCircuit.Proofs.Histories

/-!
# Listings of wires

The ends of the wires are kept in no order of their own and are sorted when they are listed. No
wire is kept twice, so every listing is strictly ascending, and a strictly ascending list is
determined by its members. Neither the history of the circuit nor the order in which a sort meets
the wires can be told from a listing.
-/

namespace QuantumCircuit

/-! ## Ascending lists -/

section
variable {α : Type} {before : α → α → Prop}

/-- `l` holds the elements of `as`, and none of them stands behind one that it comes before. Every
sort gives such a list, in whatever order it leaves elements that tie. -/
structure Arranges (before : α → α → Prop) (as l : List α) : Prop where
  perm : l.Perm as
  ordered : l.Pairwise fun a b => ¬ before b a

/-- A strictly ascending list has no ties, so there is no other way to arrange its elements. -/
theorem arranges_iff (hasymm : ∀ a b, before a b → ¬ before b a) {as l l' : List α}
    (hl' : l'.Pairwise before) (hperm : l'.Perm as) : Arranges before as l ↔ l = l' := by
  constructor
  · intro h
    -- of two different elements of `l'` one comes before the other, so what ties is equal
    have hsymm : Std.Symm fun a b => before a b ∨ before b a := ⟨fun _ _ => Or.symm⟩
    have hapart : l'.Pairwise fun a b => before a b ∨ before b a := hl'.imp Or.inl
    have htie : ∀ a b, a ∈ l → b ∈ l' → ¬ before b a → ¬ before a b → a = b := by
      intro a b ha hb hba hab
      have ha' : a ∈ l' := hperm.mem_iff.mpr (h.perm.mem_iff.mp ha)
      by_contra hne
      exact (hapart.forall ha' hb hne).elim hab hba
    exact List.Perm.eq_of_pairwise htie h.ordered (hl'.imp (hasymm _ _)) (h.perm.trans hperm.symm)
  · intro h
    subst h
    exact ⟨hperm, hl'.imp (hasymm _ _)⟩

theorem ascending_sortBy {le : α → α → Bool} {key : α → Nat} (hle : ∀ a b, le a b ↔ key a ≤ key b)
    {as : List α} (hd : (as.map key).Nodup) : (sortBy le as).Pairwise (key · < key ·) := by
  have htotal : Std.Total fun a b => (le a b : Prop) :=
    ⟨fun a b => (Nat.le_total (key a) (key b)).imp (hle a b).mpr (hle b a).mpr⟩
  have htrans : IsTrans α fun a b => (le a b : Prop) :=
    ⟨fun a b d hab hbd => (hle a d).mpr (Nat.le_trans ((hle a b).mp hab) ((hle b d).mp hbd))⟩
  have hsorted := List.pairwise_insertionSort (fun a b => (le a b : Prop)) as
  rw [← sortBy_eq_insertionSort] at hsorted
  have hne : ((sortBy le as).map key).Nodup := ((sortBy_perm le as).map key).nodup_iff.mpr hd
  refine (hsorted.and (List.pairwise_map.mp hne)).imp ?_
  intro a b hab
  exact Nat.lt_of_le_of_ne ((hle a b).mp hab.1) hab.2

end

/-! ## The order of the wires -/

namespace Wire

def Before : Wire → Wire → Prop
  | qubit q, qubit r => q.id < r.id
  | qubit _, clbit _ => True
  | clbit _, qubit _ => False
  | clbit a, clbit b => a.id < b.id

theorem before_iff (v w : Wire) : v.Before w ↔ v.rank < w.rank := by
  cases v with
  | qubit q =>
    cases w with
    | qubit r => exact UInt32.lt_iff_toNat_lt
    | clbit b =>
      have := q.id.toNat_lt
      simp only [Before, rank, UInt32.size, true_iff]
      omega
  | clbit a =>
    cases w with
    | qubit r =>
      have := r.id.toNat_lt
      simp only [Before, rank, UInt32.size, false_iff]
      omega
    | clbit b =>
      simp only [Before, rank, UInt32.lt_iff_toNat_lt]
      omega

theorem Before.asymm {v w : Wire} (h : v.Before w) : ¬ w.Before v := by
  rw [before_iff] at *
  omega

instance : Std.Asymm Before := ⟨fun _ _ => Before.asymm⟩

end Wire

/-! ## The listings of a circuit -/

namespace Circuit

variable {c c' : Circuit} {ops ops' : Wire → List NodeId}

theorem Wired.ascending_outputEnds (h : c.Wired ops) :
    c.outputEnds.Pairwise fun a b => a.1.Before b.1 := by
  have hkeys : (c.outputs.map fun p => p.1.rank).Nodup := by
    have hranks := (h.same_keys ▸ h.keys : (c.outputs.map (·.1)).Nodup).map fun _ _ => Wire.rank_inj
    rwa [List.map_map] at hranks
  simp only [Wire.before_iff]
  exact ascending_sortBy (fun _ _ => decide_eq_true_iff) hkeys

theorem Wired.ascending_parts (h : c.Wired ops) {α : Type} {part? : Wire → Option α} {wire : α → Wire}
    (hpart : ∀ w a, part? w = some a ↔ w = wire a) {number : α → UInt32} (hinj : number.Injective) :
    (sortBy (fun a b => number a ≤ number b) (c.inputs.filterMap fun p => part? p.1)).Pairwise
      fun a b => number a < number b := by
  have hkeys := (h.nodup_filterMap_inputs hpart).map
    (f := fun a => (number a).toNat) fun _ _ hab => hinj (UInt32.toNat_inj.mp hab)
  simp only [UInt32.lt_iff_toNat_lt]
  refine ascending_sortBy (fun a b => ?_) hkeys
  rw [decide_eq_true_iff, UInt32.le_iff_toNat_le]

theorem Wired.ascending_qubits (h : c.Wired ops) : c.qubits.Pairwise fun q r => q.id < r.id := by
  refine h.ascending_parts (fun _ _ => Wire.qubit?_eq_some) ?_
  rintro ⟨i⟩ ⟨j⟩ hij
  exact congrArg Qubit.mk hij

theorem Wired.ascending_clbits (h : c.Wired ops) : c.clbits.Pairwise fun a b => a.id < b.id := by
  refine h.ascending_parts (fun _ _ => Wire.clbit?_eq_some) ?_
  rintro ⟨i⟩ ⟨j⟩ hij
  exact congrArg Clbit.mk hij

theorem Wired.mem_map_outputEnds (h : c.Wired ops) {w : Wire} :
    w ∈ c.outputEnds.map (·.1) ↔ c.hasWire w := by
  rw [h.perm_outputEnds.mem_iff, hasWire_iff]

theorem Wired.ascending_map_outputEnds (h : c.Wired ops) :
    (c.outputEnds.map (·.1)).Pairwise Wire.Before :=
  List.pairwise_map.mpr h.ascending_outputEnds

theorem Wired.map_outputEnds (h : c.Wired ops) :
    c.outputEnds.map (·.1) = c.qubits.map .qubit ++ c.clbits.map .clbit := by
  have hparts : (c.qubits.map Wire.qubit ++ c.clbits.map Wire.clbit).Pairwise Wire.Before := by
    refine List.pairwise_append.mpr
      ⟨List.pairwise_map.mpr h.ascending_qubits, List.pairwise_map.mpr h.ascending_clbits, ?_⟩
    intro v hv w hw
    obtain ⟨q, -, rfl⟩ := List.mem_map.mp hv
    obtain ⟨b, -, rfl⟩ := List.mem_map.mp hw
    trivial
  -- the two sides come from different maps and only their members are known to agree
  apply h.ascending_map_outputEnds.eq_of_mem_iff hparts
  intro w
  rw [h.mem_map_outputEnds, List.mem_append]
  cases w with
  | qubit q => simp [mem_qubits]
  | clbit b => simp [mem_clbits]

theorem Wired.qubits_eq (h : c.Wired ops) : c.qubits = (c.outputEnds.map (·.1)).filterMap Wire.qubit? := by
  rw [h.map_outputEnds, List.filterMap_append, List.filterMap_map, List.filterMap_map]
  simp [Function.comp_def, Wire.qubit?]

theorem Wired.clbits_eq (h : c.Wired ops) : c.clbits = (c.outputEnds.map (·.1)).filterMap Wire.clbit? := by
  rw [h.map_outputEnds, List.filterMap_append, List.filterMap_map, List.filterMap_map]
  simp [Function.comp_def, Wire.clbit?]

theorem Wired.map_outputEnds_congr (h : c.Wired ops) (h' : c'.Wired ops')
    (hw : ∀ w, c'.hasWire w ↔ c.hasWire w) : c'.outputEnds.map (·.1) = c.outputEnds.map (·.1) := by
  apply h'.ascending_map_outputEnds.eq_of_mem_iff h.ascending_map_outputEnds
  intro w
  rw [h.mem_map_outputEnds, h'.mem_map_outputEnds, hw]

end Circuit

theorem Call.hasWire_applyAll_empty {κ : Type} [DecidableEq κ] {V : κ → Type} (calls : List (Call V))
    (w : Wire) : (applyAll .empty calls).hasWire w ↔ w ∈ calls.filterMap added? := by
  rw [hasWire_applyAll calls .refl, List.mem_filterMap]
  simp [Circuit.hasWire, Circuit.input?, Circuit.empty]

/-- **Listings of wires are canonical.** Whatever calls lead to a circuit, its output ends are listed
in strictly ascending order of their wires, each wire that was ever added once and with its own live
end, and the wires are the qubits followed by the classical bits. Any sort makes the same listings of
the entries, in whatever order it meets them, and any history that adds the same wires leads to the
same wires in the same order. -/
theorem listings_are_canonical {κ : Type} [DecidableEq κ] {V : κ → Type} (calls : List (Call V)) :
    let c := Call.applyAll .empty calls
    (c.outputEnds.Pairwise (fun a b => a.1.Before b.1) ∧
      (∀ w, (c.outputEnds.map (·.1)).count w = if w ∈ calls.filterMap Call.added? then 1 else 0) ∧
      ∀ w n, (w, n) ∈ c.outputEnds ↔ c.output? w = some n ∧ c.node? n = some (.output w)) ∧
    c.outputEnds.map (·.1) = c.qubits.map .qubit ++ c.clbits.map .clbit ∧
    (∀ inputs outputs : List (Wire × NodeId), inputs.Perm c.inputs → outputs.Perm c.outputs →
      (∀ l, Arranges (fun a b => a.1.Before b.1) outputs l ↔ l = c.outputEnds) ∧
      (∀ l, Arranges (fun q r => q.id < r.id) (inputs.filterMap (·.1.qubit?)) l ↔ l = c.qubits) ∧
      ∀ l, Arranges (fun a b => a.id < b.id) (inputs.filterMap (·.1.clbit?)) l ↔ l = c.clbits) ∧
    ∀ calls' : List (Call V),
      (∀ w, w ∈ calls'.filterMap Call.added? ↔ w ∈ calls.filterMap Call.added?) →
      let c' := Call.applyAll .empty calls'
      c'.outputEnds.map (·.1) = c.outputEnds.map (·.1) ∧ c'.qubits = c.qubits ∧ c'.clbits = c.clbits := by
  intro c
  obtain ⟨ops, h⟩ := (Call.reachable_applyAll calls .refl).wired
  refine ⟨⟨h.ascending_outputEnds, ?_, ?_⟩, h.map_outputEnds, ?_, ?_⟩
  · intro w
    have hmem := h.mem_map_outputEnds.trans (Call.hasWire_applyAll_empty calls w)
    have hnodup : (c.outputEnds.map (·.1)).Nodup := h.perm_outputEnds.nodup_iff.mpr h.keys
    rw [hnodup.count]
    exact if_congr hmem rfl rfl
  · intro w n
    rw [h.mem_outputEnds, ← h.output_iff, and_self]
  · intro inputs outputs hins houts
    refine ⟨fun l => ?_, fun l => ?_, fun l => ?_⟩
    · exact arranges_iff (fun _ _ => Wire.Before.asymm) h.ascending_outputEnds
        ((sortBy_perm _ _).trans houts.symm)
    · exact arranges_iff (fun _ _ => UInt32.lt_asymm) h.ascending_qubits
        ((sortBy_perm _ _).trans (hins.symm.filterMap _))
    · exact arranges_iff (fun _ _ => UInt32.lt_asymm) h.ascending_clbits
        ((sortBy_perm _ _).trans (hins.symm.filterMap _))
  · intro calls' hsame c'
    obtain ⟨ops', h'⟩ := (Call.reachable_applyAll calls' .refl).wired
    have hwires : c'.outputEnds.map (·.1) = c.outputEnds.map (·.1) := by
      apply h.map_outputEnds_congr h'
      intro w
      rw [Call.hasWire_applyAll_empty, Call.hasWire_applyAll_empty, hsame]
    exact ⟨hwires, by rw [h'.qubits_eq, hwires, ← h.qubits_eq], by rw [h'.clbits_eq, hwires, ← h.clbits_eq]⟩

theorem listings_of_renumbered :
    let calls : List (Call fun _ : Empty => Unit) :=
      [.addClbit ⟨0⟩, .addQubit ⟨2⟩, .append (.reset ⟨2⟩), .append (.reset ⟨2⟩), .remove 4, .remove 5,
        .addQubit ⟨0⟩, .append (.reset ⟨1⟩), .addQubit ⟨2⟩]
    let calls' : List (Call fun _ : Empty => Unit) := [.addQubit ⟨0⟩, .addQubit ⟨2⟩, .addClbit ⟨0⟩]
    let c := Call.applyAll .empty calls
    let c' := Call.applyAll .empty calls'
    c.outputEnds = [(.qubit ⟨0⟩, 4), (.qubit ⟨2⟩, 3), (.clbit ⟨0⟩, 1)] ∧
      c'.outputEnds = [(.qubit ⟨0⟩, 1), (.qubit ⟨2⟩, 3), (.clbit ⟨0⟩, 5)] ∧
      c.node? 4 = some (.output (.qubit ⟨0⟩)) ∧
      Arranges (fun a b => a.1.Before b.1) c.outputs.reverse c.outputEnds ∧
      c'.outputEnds.map (·.1) = c.outputEnds.map (·.1) ∧ c'.qubits = c.qubits ∧ c'.clbits = c.clbits := by
  intro calls calls' c c'
  obtain ⟨⟨-, -, hends⟩, -, hsorts, hsame⟩ := listings_are_canonical calls
  have hlisted : c.outputEnds = [(.qubit ⟨0⟩, 4), (.qubit ⟨2⟩, 3), (.clbit ⟨0⟩, 1)] := by decide +kernel
  have hlisted' : c'.outputEnds = [(.qubit ⟨0⟩, 1), (.qubit ⟨2⟩, 3), (.clbit ⟨0⟩, 5)] := by decide +kernel
  have hmem : (.qubit ⟨0⟩, 4) ∈ c.outputEnds := by rw [hlisted]; simp
  refine ⟨hlisted, hlisted', ((hends _ _).mp hmem).2, ?_, hsame calls' ?_⟩
  · exact ((hsorts c.inputs c.outputs.reverse (.refl _) c.outputs.reverse_perm).1 _).mpr rfl
  · intro w
    simp only [calls, calls', List.filterMap_cons, List.filterMap_nil, Call.added?, List.mem_cons]
    grind

end QuantumCircuit
