import Mathlib.Data.List.Nodup
import Mathlib.Data.List.Perm.Subperm
import QuantumCircuit.Graph.Order

/-!
# Graphs threaded along labelled paths

A graph is threaded along a family of paths, one for each label, if the edges with a label
are the edges along its path and no others. The edges at a node with a given label can then
be read off the path.
-/

namespace QuantumCircuit

variable {α β : Type}

/-- The edge that leads from `n` to `m` when it is followed in the direction `d`. -/
def Direction.edge (d : Direction) (n m : NodeId) (l : β) : Edge β :=
  match d with
  | .forward => ⟨n, m, l⟩
  | .backward => ⟨m, n, l⟩

@[simp] theorem Direction.near_edge (d : Direction) (n m : NodeId) (l : β) : (d.edge n m l).near d = n := by
  cases d <;> rfl

@[simp] theorem Direction.far_edge (d : Direction) (n m : NodeId) (l : β) : (d.edge n m l).far d = m := by
  cases d <;> rfl

@[simp] theorem Direction.label_edge (d : Direction) (n m : NodeId) (l : β) : (d.edge n m l).label = l := by
  cases d <;> rfl

theorem Direction.edge_near_far (d : Direction) (e : Edge β) : d.edge (e.near d) (e.far d) e.label = e := by
  cases d <;> rfl

def pathEdges (l : β) : List NodeId → List (Edge β)
  | a :: b :: rest => ⟨a, b, l⟩ :: pathEdges l (b :: rest)
  | _ => []

@[simp] theorem pathEdges_nil (l : β) : pathEdges l [] = [] := rfl

@[simp] theorem pathEdges_singleton (l : β) (a : NodeId) : pathEdges l [a] = [] := rfl

@[simp] theorem pathEdges_cons_cons (l : β) (a b : NodeId) (p : List NodeId) :
    pathEdges l (a :: b :: p) = ⟨a, b, l⟩ :: pathEdges l (b :: p) := rfl

theorem pathEdges_append (l : β) : ∀ (p : List NodeId) (a : NodeId) (r : List NodeId),
    pathEdges l (p ++ a :: r) = pathEdges l (p ++ [a]) ++ pathEdges l (a :: r)
  | [], _, _ => rfl
  | [_], _, _ => rfl
  | b :: b' :: p, a, r => by
    have ih := pathEdges_append l (b' :: p) a r
    simp only [List.cons_append, pathEdges_cons_cons] at ih ⊢
    rw [ih]

theorem label_of_mem_pathEdges {l : β} {e : Edge β} : ∀ {p : List NodeId},
    e ∈ pathEdges l p → e.label = l
  | [], h => by cases h
  | [_], h => by cases h
  | a :: b :: p, h => by
    rw [pathEdges_cons_cons] at h
    rcases List.mem_cons.mp h with rfl | h
    · rfl
    · exact label_of_mem_pathEdges h

theorem mem_pathEdges {l : β} {a b : NodeId} : ∀ {p : List NodeId},
    ⟨a, b, l⟩ ∈ pathEdges l p ↔ ∃ r s, p = r ++ a :: b :: s
  | [] => by simp
  | [c] => by
    simp only [pathEdges_singleton, List.not_mem_nil, false_iff]
    rintro ⟨r, s, h⟩
    have := congrArg List.length h
    simp only [List.length_append, List.length_cons, List.length_nil] at this
    omega
  | c :: d :: p => by
    rw [pathEdges_cons_cons, List.mem_cons, mem_pathEdges (p := d :: p)]
    constructor
    · rintro (h | ⟨r, s, h⟩)
      · cases h
        exact ⟨[], p, rfl⟩
      · exact ⟨c :: r, s, by rw [h]; rfl⟩
    · rintro ⟨r, s, h⟩
      cases r with
      | nil =>
        simp only [List.nil_append, List.cons.injEq] at h
        obtain ⟨rfl, rfl, -⟩ := h
        exact .inl rfl
      | cons x r => exact .inr ⟨r, s, (List.cons.inj h).2⟩

theorem near_mem_of_pathEdges (d : Direction) {l : β} {e : Edge β} {p : List NodeId}
    (h : e ∈ pathEdges l p) : e.near d ∈ p := by
  obtain rfl := label_of_mem_pathEdges h
  obtain ⟨r, s, rfl⟩ := mem_pathEdges.mp h
  cases d <;> simp [Edge.near]

theorem source_mem_init {l : β} {e : Edge β} {p : List NodeId} {a : NodeId}
    (h : e ∈ pathEdges l (p ++ [a])) : e.source ∈ p := by
  obtain rfl := label_of_mem_pathEdges h
  obtain ⟨r, s, hp⟩ := mem_pathEdges.mp h
  have : p = r ++ e.source :: (e.target :: s).dropLast := by
    have := congrArg List.dropLast hp
    simpa [List.dropLast_append_of_ne_nil] using this
  rw [this]; simp

theorem target_mem_tail {l : β} {e : Edge β} {p : List NodeId} {a : NodeId}
    (h : e ∈ pathEdges l (a :: p)) : e.target ∈ p := by
  obtain rfl := label_of_mem_pathEdges h
  obtain ⟨r, s, hp⟩ := mem_pathEdges.mp h
  cases r with
  | nil => rw [(List.cons.inj hp).2]; simp
  | cons b r => rw [(List.cons.inj hp).2]; simp

theorem exists_concat (a : NodeId) (l : List NodeId) : ∃ p b, a :: l = p ++ [b] :=
  ⟨_, _, (List.dropLast_concat_getLast (List.cons_ne_nil a l)).symm⟩

/-! ## Paths without repetition -/

theorem split_unique {p p' r r' : List NodeId} {n : NodeId} (h : (p ++ n :: r).Nodup)
    (heq : p ++ n :: r = p' ++ n :: r') : p = p' ∧ r = r' := by
  have hn := (List.nodup_cons.mp (List.nodup_middle.mp h)).1
  rw [List.mem_append, not_or] at hn
  have := (List.append_cons_inj_of_notMem hn.1 hn.2).mp heq
  exact ⟨this.1, this.2.2⟩

theorem filter_near_of_mem (d : Direction) (l : β) {p r : List NodeId} {a b : NodeId}
    (h : (p ++ a :: b :: r).Nodup) :
    (pathEdges l (p ++ a :: b :: r)).filter (·.near d == (⟨a, b, l⟩ : Edge β).near d) = [⟨a, b, l⟩] := by
  obtain ⟨-, hr, hpr⟩ := List.nodup_append.mp h
  have hab := List.nodup_cons.mp hr
  have hbefore : ∀ e ∈ pathEdges l (p ++ [a]), e.near d ≠ (⟨a, b, l⟩ : Edge β).near d := by
    intro e he
    cases d with
    | forward => exact hpr _ (source_mem_init he) a (by simp)
    | backward =>
      rcases List.mem_append.mp (near_mem_of_pathEdges .backward he) with ht | ht
      · exact hpr _ ht b (by simp)
      · rw [List.mem_singleton.mp ht]
        exact fun h => hab.1 (h ▸ List.mem_cons_self)
  have hafter : ∀ e ∈ pathEdges l (b :: r), e.near d ≠ (⟨a, b, l⟩ : Edge β).near d := by
    intro e he heq
    cases d with
    | forward =>
      have hmem := near_mem_of_pathEdges .forward he
      rw [heq] at hmem
      exact hab.1 hmem
    | backward =>
      have hmem : e.near .backward ∈ r := target_mem_tail he
      rw [heq] at hmem
      exact (List.nodup_cons.mp hab.2).1 hmem
  rw [pathEdges_append, List.filter_append, pathEdges_cons_cons, List.filter_cons_of_pos (by simp)]
  rw [List.filter_eq_nil_iff.mpr fun e he => by simpa using hbefore e he]
  rw [List.filter_eq_nil_iff.mpr fun e he => by simpa using hafter e he]
  rfl

theorem filter_near_of_not_mem (d : Direction) (l : β) {p : List NodeId} {n : NodeId} (h : n ∉ p) :
    (pathEdges l p).filter (·.near d == n) = [] := by
  rw [List.filter_eq_nil_iff]
  intro e he
  have : e.near d ≠ n := fun hn => h (hn ▸ near_mem_of_pathEdges d he)
  simpa using this

def Edge.avoids (n : NodeId) (e : Edge β) : Bool := e.source != n && e.target != n

theorem filter_avoids_of_not_mem (l : β) {p : List NodeId} {n : NodeId} (h : n ∉ p) :
    (pathEdges l p).filter (Edge.avoids n) = pathEdges l p := by
  rw [List.filter_eq_self]
  intro e he
  have hs : e.source ≠ n := fun hn => h (hn ▸ near_mem_of_pathEdges .forward he)
  have ht : e.target ≠ n := fun hn => h (hn ▸ near_mem_of_pathEdges .backward he)
  simp [Edge.avoids, hs, ht]

theorem filter_avoids_of_mem (l : β) {p r : List NodeId} {a n b : NodeId}
    (h : (p ++ a :: n :: b :: r).Nodup) :
    (pathEdges l (p ++ a :: n :: b :: r)).filter (Edge.avoids n) =
      pathEdges l (p ++ [a]) ++ pathEdges l (b :: r) := by
  have h' : ((p ++ [a]) ++ n :: b :: r).Nodup := by simpa using h
  have hn := (List.nodup_cons.mp (List.nodup_middle.mp h')).1
  rw [pathEdges_append, List.filter_append, pathEdges_cons_cons, pathEdges_cons_cons]
  rw [filter_avoids_of_not_mem l (fun hm => hn (List.mem_append_left _ hm))]
  rw [List.filter_cons_of_neg (by simp [Edge.avoids]), List.filter_cons_of_neg (by simp [Edge.avoids])]
  rw [filter_avoids_of_not_mem l (fun hm => hn (List.mem_append_right _ hm))]

theorem perm_past (l : β) {p r : List NodeId} {a n b : NodeId} {es : List (Edge β)}
    (h : (p ++ a :: n :: b :: r).Nodup) (hes : es.Perm (pathEdges l (p ++ a :: n :: b :: r))) :
    (⟨a, b, l⟩ :: es.filter (Edge.avoids n)).Perm (pathEdges l (p ++ a :: b :: r)) := by
  have hparts := hes.filter (Edge.avoids n)
  rw [filter_avoids_of_mem l h] at hparts
  rw [pathEdges_append, pathEdges_cons_cons]
  exact (hparts.cons _).trans List.perm_middle.symm

/-! ## Threaded graphs -/

namespace Graph

variable [DecidableEq β]

/-- For every label, the edges with it are those along its path. -/
def Threaded (g : Graph α β) (path : β → List NodeId) : Prop :=
  ∀ l, (g.edges.filter (·.label == l)).Perm (pathEdges l (path l))

namespace Threaded

variable {g : Graph α β} {path : β → List NodeId}

theorem mem_edges (h : g.Threaded path) {a b : NodeId} {l : β} :
    ⟨a, b, l⟩ ∈ g.edges ↔ ∃ r s, path l = r ++ a :: b :: s := by
  rw [← mem_pathEdges (l := l), ← (h l).mem_iff]
  simp

theorem near_mem (h : g.Threaded path) (d : Direction) {e : Edge β} (he : e ∈ g.edges) :
    e.near d ∈ path e.label :=
  near_mem_of_pathEdges d ((h e.label).mem_iff.mp (by simpa using he))

theorem edgesAt_perm (h : g.Threaded path) (d : Direction) (n : NodeId) (l : β) :
    ((g.edgesAt d n).filter (·.label == l)).Perm ((pathEdges l (path l)).filter (·.near d == n)) := by
  have := (h l).filter (·.near d == n)
  rw [List.filter_filter] at this
  unfold edgesAt
  rw [List.filter_filter]
  simpa only [Bool.and_comm] using this

theorem edgesAt_eq (h : g.Threaded path) (d : Direction) {e : Edge β} (hn : (path e.label).Nodup)
    (he : e ∈ g.edges) : (g.edgesAt d (e.near d)).filter (·.label == e.label) = [e] := by
  obtain ⟨p, r, hp⟩ := h.mem_edges.mp he
  have hperm := h.edgesAt_perm d (e.near d) e.label
  rw [hp] at hperm hn
  exact List.perm_singleton.mp (filter_near_of_mem d e.label hn ▸ hperm)

theorem edgesAt_eq_nil (h : g.Threaded path) (d : Direction) {l : β} {n : NodeId} (hn : n ∉ path l) :
    (g.edgesAt d n).filter (·.label == l) = [] := by
  have := h.edgesAt_perm d n l
  rwa [filter_near_of_not_mem d l hn, List.perm_nil] at this

theorem insert_last (h : g.Threaded path) {l : β} {p : List NodeId} {a o : NodeId}
    (hp : path l = p ++ [a, o]) (n : NodeId) :
    (((g.removeEdge ⟨a, o, l⟩).addEdge ⟨a, n, l⟩).addEdge ⟨n, o, l⟩).Threaded
      (Function.update path l (p ++ [a, n, o])) := by
  intro k
  have hk := h k
  simp only [addEdge, removeEdge, List.filter_cons, ← List.erase_filter]
  by_cases hkl : k = l
  · subst hkl
    rw [hp, pathEdges_append, pathEdges_cons_cons, pathEdges_singleton] at hk
    have hrest := (hk.trans (List.perm_append_singleton _ _)).erase ⟨a, o, k⟩
    rw [List.erase_cons_head] at hrest
    simp only [beq_self_eq_true, if_true, Function.update_self]
    rw [pathEdges_append, pathEdges_cons_cons, pathEdges_cons_cons, pathEdges_singleton]
    refine ((hrest.cons _).cons _).trans ((List.Perm.swap _ _ _).trans ?_)
    show List.Perm (([⟨a, n, k⟩, ⟨n, o, k⟩] : List (Edge β)) ++ pathEdges k (p ++ [a])) _
    exact List.perm_append_comm
  · have hlk : (l == k) = false := by simpa using Ne.symm hkl
    have hnot : (⟨a, o, l⟩ : Edge β) ∉ g.edges.filter (·.label == k) := by simp [hlk]
    rw [Function.update_of_ne hkl]
    simpa [hlk, List.erase_of_not_mem hnot] using hk

end Threaded

end Graph

end QuantumCircuit
