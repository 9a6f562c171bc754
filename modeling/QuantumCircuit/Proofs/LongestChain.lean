import Mathlib.Order.Bounds.Basic
import QuantumCircuit.Proofs.DependencyOrder

/-!
# The longest chain of dependencies

Levels are given out along a topological order, so those of all sources are known when a node is
reached. The level of a node is then the greatest number of operations on a path that ends there,
and the depth the greatest on any path, whichever topological order was followed. The ends of a
wire only come first or last on a path, so what is left without them is a chain of operations,
each directly after the one before on a wire that they share.
-/

namespace QuantumCircuit

open Relation

theorem foldr_max_mem : ∀ l : List Nat, l.foldr max 0 = 0 ∨ l.foldr max 0 ∈ l
  | [] => .inl rfl
  | x :: l => by
    rw [List.foldr_cons]
    rcases Nat.le_total (l.foldr max 0) x with h | h
    · rw [Nat.max_eq_left h]
      exact .inr (by simp)
    · rw [Nat.max_eq_right h]
      exact (foldr_max_mem l).imp_right (List.mem_cons_of_mem x)

namespace Graph

variable {α β : Type} {g : Graph α β} {marked : NodeId → Bool} {order done rest p : List NodeId}
  {n m : NodeId} {table : List (NodeId × Nat)}

structure Path (g : Graph α β) (p : List NodeId) : Prop where
  live : ∀ n ∈ p, g.isLive n
  linked : p.IsChain g.Adj

structure IsTopological (g : Graph α β) (order : List NodeId) : Prop where
  perm : order.Perm g.nodes
  forward : ∀ e ∈ g.edges, order.idxOf e.source < order.idxOf e.target

theorem Path.nil (g : Graph α β) : g.Path [] := ⟨by simp, .nil⟩

theorem Path.concat (hp : g.Path (p ++ [m])) (hadj : g.Adj m n) (hn : g.isLive n) :
    g.Path (p ++ [m] ++ [n]) := by
  constructor
  · intro k hk
    rcases List.mem_append.mp hk with hk | hk
    · exact hp.live k hk
    · rwa [List.mem_singleton.mp hk]
  · rw [List.append_assoc]
    exact List.isChain_append_cons_cons.mpr ⟨hp.linked, hadj, .singleton n⟩

theorem Path.of_concat (hp : g.Path (p ++ [m] ++ [n])) : g.Path (p ++ [m]) ∧ g.Adj m n := by
  have hlinked := hp.linked
  rw [List.append_assoc] at hlinked
  obtain ⟨hinit, hadj, -⟩ := List.isChain_append_cons_cons.mp hlinked
  exact ⟨⟨fun k hk => hp.live k (List.mem_append_left _ hk), hinit⟩, hadj⟩

namespace IsTopological

theorem nodup (h : g.IsTopological order) : order.Nodup := h.perm.nodup_iff.mpr g.nodup_nodes

theorem mem_iff (h : g.IsTopological order) : n ∈ order ↔ g.isLive n := h.perm.mem_iff.trans mem_nodes

theorem source_mem (h : g.IsTopological (done ++ n :: rest)) (hadj : g.Adj m n) : m ∈ done := by
  obtain ⟨e, he, rfl, rfl⟩ := hadj
  have hn : e.target ∉ done := fun hmem => (List.nodup_append.mp h.nodup).2.2 _ hmem _ (by simp) rfl
  have hlt := h.forward e he
  by_contra hm
  rw [List.idxOf_append, if_neg hm, List.idxOf_append, if_neg hn, List.idxOf_cons_self] at hlt
  omega

end IsTopological

/-! ## Levels along a topological order -/

def loadsTo (g : Graph α β) (marked : NodeId → Bool) (n : NodeId) : Set Nat :=
  {k | ∃ p, g.Path (p ++ [n]) ∧ (p ++ [n]).countP marked = k}

def loads (g : Graph α β) (marked : NodeId → Bool) : Set Nat :=
  {k | ∃ p, g.Path p ∧ p.countP marked = k}

/-- The table holds the levels of the nodes `done`, each the greatest load of a path to its node. -/
structure Loaded (g : Graph α β) (marked : NodeId → Bool) (done : List NodeId)
    (table : List (NodeId × Nat)) : Prop where
  listed : ∀ n ∈ done, ∃ k, table.lookup n = some k
  greatest : ∀ n k, (n, k) ∈ table → IsGreatest (g.loadsTo marked n) k

theorem mem_of_lookup {k : Nat} (h : table.lookup n = some k) : (n, k) ∈ table := by
  obtain ⟨l₁, l₂, rfl, -⟩ := List.lookup_eq_some_iff.mp h
  simp

namespace Loaded

variable (hs : g.Loaded marked done table)
include hs

theorem countP_le_sourceLevel (hdone : ∀ m, g.Adj m n → m ∈ done) (hp : g.Path (p ++ [n])) :
    p.countP marked ≤ g.sourceLevel table n := by
  rcases List.eq_nil_or_concat p with rfl | ⟨r, m, rfl⟩
  · exact Nat.zero_le _
  · rw [List.concat_eq_append] at hp ⊢
    obtain ⟨hr, hadj⟩ := hp.of_concat
    obtain ⟨k, hk⟩ := hs.listed m (hdone m hadj)
    have hle : (r ++ [m]).countP marked ≤ k := (hs.greatest m k (mem_of_lookup hk)).2 ⟨r, hr, rfl⟩
    obtain ⟨e, he, hsource, htarget⟩ := hadj
    refine Nat.le_trans hle (le_foldr_max (List.mem_map.mpr ⟨e, ?_, ?_⟩))
    · exact mem_edgesAt.mpr ⟨he, htarget⟩
    · rw [hsource, hk, Option.getD_some]

theorem exists_sourceLevel (hn : g.isLive n) :
    ∃ p, g.Path (p ++ [n]) ∧ p.countP marked = g.sourceLevel table n := by
  have halone : g.Path ([] ++ [n]) := ⟨by simpa using hn, .singleton n⟩
  rcases foldr_max_mem ((g.incoming n).map fun e => (table.lookup e.source).getD 0) with hzero | hmem
  · exact ⟨[], halone, hzero.symm⟩
  · obtain ⟨e, he, hlevel⟩ := List.mem_map.mp hmem
    obtain ⟨hedge, htarget⟩ := mem_edgesAt.mp he
    cases hk : table.lookup e.source with
    | none =>
      rw [hk] at hlevel
      exact ⟨[], halone, hlevel⟩
    | some k =>
      obtain ⟨r, hr, hcount⟩ := (hs.greatest _ _ (mem_of_lookup hk)).1
      have hadj : g.Adj e.source n := ⟨e, hedge, rfl, htarget⟩
      refine ⟨r ++ [e.source], hr.concat hadj hn, ?_⟩
      rw [hk, Option.getD_some] at hlevel
      exact hcount.trans hlevel

theorem step (hdone : ∀ m, g.Adj m n → m ∈ done) (hn : g.isLive n) :
    g.Loaded marked (done ++ [n])
      ((n, g.sourceLevel table n + if marked n then 1 else 0) :: table) := by
  have hcount : ∀ p : List NodeId, (p ++ [n]).countP marked =
      p.countP marked + if marked n then 1 else 0 := by
    intro p
    rw [List.countP_append, List.countP_singleton]
  constructor
  · intro m hm
    rw [List.lookup_cons]
    by_cases hmn : m = n
    · simp [hmn]
    · rw [beq_false_of_ne hmn]
      exact hs.listed m ((List.mem_append.mp hm).resolve_right (by simpa using hmn))
  · intro m k hmk
    rcases List.mem_cons.mp hmk with heq | hmk
    · cases heq
      constructor
      · obtain ⟨p, hp, hlevel⟩ := hs.exists_sourceLevel hn
        exact ⟨p, hp, by rw [hcount, hlevel]⟩
      · rintro _ ⟨p, hp, rfl⟩
        rw [hcount]
        exact Nat.add_le_add_right (hs.countP_le_sourceLevel hdone hp) _
    · exact hs.greatest m k hmk

end Loaded

theorem Loaded.run {done : List NodeId} {table : List (NodeId × Nat)} (hs : g.Loaded marked done table)
    (rest : List NodeId) (ht : g.IsTopological (done ++ rest)) :
    g.Loaded marked (done ++ rest) (rest.foldl
      (fun table n => (n, g.sourceLevel table n + if marked n then 1 else 0) :: table) table) := by
  induction rest generalizing done table with
  | nil => simpa using hs
  | cons n rest ih =>
    have hn : g.isLive n := ht.mem_iff.mp (by simp)
    have hstep := hs.step (fun m hm => ht.source_mem hm) hn
    have hassoc : done ++ n :: rest = (done ++ [n]) ++ rest := by simp
    rw [hassoc] at ht ⊢
    exact ih hstep ht

theorem Loaded.isGreatest (hs : g.Loaded marked order table) (horder : ∀ n, g.isLive n → n ∈ order) :
    IsGreatest (g.loads marked) ((table.map (·.2)).foldr max 0) := by
  constructor
  · rcases foldr_max_mem (table.map (·.2)) with hzero | hmem
    · exact ⟨[], .nil g, hzero.symm⟩
    · obtain ⟨⟨n, k⟩, hnk, hk⟩ := List.mem_map.mp hmem
      obtain ⟨p, hp, hcount⟩ := (hs.greatest n k hnk).1
      exact ⟨p ++ [n], hp, hcount.trans hk⟩
  · rintro _ ⟨p, hp, rfl⟩
    rcases List.eq_nil_or_concat p with rfl | ⟨r, n, rfl⟩
    · exact Nat.zero_le _
    · rw [List.concat_eq_append] at hp ⊢
      obtain ⟨k, hk⟩ := hs.listed n (horder n (hp.live n (by simp)))
      have hle : (r ++ [n]).countP marked ≤ k := (hs.greatest n k (mem_of_lookup hk)).2 ⟨r, hp, rfl⟩
      exact Nat.le_trans hle (le_foldr_max (List.mem_map_of_mem (mem_of_lookup hk)))

theorem IsTopological.isGreatest_levels (h : g.IsTopological order) :
    IsGreatest (g.loads marked)
      (((g.levels (fun n => if marked n then 1 else 0) order).map (·.2)).foldr max 0) := by
  have hstart : g.Loaded marked [] [] := ⟨by simp, by simp⟩
  exact (hstart.run order h).isGreatest fun n hn => h.mem_iff.mpr hn

end Graph

namespace Circuit

variable {c : Circuit} {ops : Wire → List NodeId} {a b n : NodeId} {p l : List NodeId}

def isOpAt (c : Circuit) (n : NodeId) : Bool := (c.instruction? n).isSome

def depthAlong (c : Circuit) (order : List NodeId) : Nat :=
  ((c.graph.levels c.weight order).map (·.2)).foldr max 0

def Follows (c : Circuit) (a b : NodeId) : Prop :=
  ∃ w i j, c.instruction? a = some i ∧ c.instruction? b = some j ∧ w ∈ i.wires ∧ w ∈ j.wires ∧
    c.next a w = .ok b

structure DependencyChain (c : Circuit) (l : List NodeId) : Prop where
  ops : ∀ n ∈ l, c.isOpAt n
  linked : l.IsChain c.Follows

theorem Wired.isTopological (h : c.Wired ops) :
    ∃ order, c.graph.topologicalOrder? = some order ∧ c.graph.IsTopological order := by
  obtain ⟨ho, hf, hp⟩ := Graph.topologicalOrder?_eq_some h.acyclic h.closed
  refine ⟨_, ho, hp, ?_⟩
  intro e he
  have hs : e.source ∈ c.graph.searchOrder := hp.mem_iff.mpr (Graph.mem_nodes.mpr (h.closed e he).1)
  exact hf.idxOf_lt hs ⟨e, he, rfl, rfl⟩

theorem isGreatest_depthAlong {order : List NodeId} (h : c.graph.IsTopological order) :
    IsGreatest (c.graph.loads c.isOpAt) (c.depthAlong order) :=
  h.isGreatest_levels

theorem Wired.isGreatest_depth (h : c.Wired ops) : IsGreatest (c.graph.loads c.isOpAt) c.depth := by
  obtain ⟨order, ho, ht⟩ := h.isTopological
  have hdepth : c.depth = c.depthAlong order := by rw [depth, ho]; rfl
  rw [hdepth]
  exact isGreatest_depthAlong ht

/-! ## Paths without the ends of wires -/

theorem Wired.exists_track (h : c.Wired ops) (hab : c.graph.Adj a b) :
    ∃ w r s, c.track ops w = r ++ a :: b :: s := by
  obtain ⟨⟨_, _, w⟩, he, rfl, rfl⟩ := hab
  exact ⟨w, h.threaded.mem_edges.mp he⟩

theorem Wired.not_input_of_adj (h : c.Wired ops) (hab : c.graph.Adj a b) (v : Wire) :
    c.node? b ≠ some (.input v) := by
  intro hb
  obtain ⟨w, r, s, ht⟩ := h.exists_track hab
  have hw : w ∈ (Node.input v).wires := (h.mem_track hb w).mp (by rw [ht]; simp)
  obtain rfl : w = v := List.mem_singleton.mp hw
  have hi := (h.input_iff w b).mpr hb
  have hhead : c.track ops w = [] ++ b :: (ops w ++ (c.output? w).toList) := by simp [track, hi]
  have hsplit : [] ++ b :: (ops w ++ (c.output? w).toList) = (r ++ [a]) ++ b :: s := by
    rw [← hhead, ht]; simp
  have := (split_unique (hhead ▸ h.nodup_track w) hsplit).1
  simp at this

theorem Wired.not_output_of_adj (h : c.Wired ops) (hab : c.graph.Adj a b) (v : Wire) :
    c.node? a ≠ some (.output v) := by
  intro ha
  obtain ⟨w, r, s, ht⟩ := h.exists_track hab
  have hw : w ∈ (Node.output v).wires := (h.mem_track ha w).mp (by rw [ht]; simp)
  obtain rfl : w = v := List.mem_singleton.mp hw
  have ho := (h.output_iff w a).mpr ha
  have hlast : c.track ops w = ((c.input? w).toList ++ ops w) ++ a :: [] := by simp [track, ho]
  have := (split_unique (ht ▸ h.nodup_track w) (ht.symm.trans hlast)).2
  cases this

theorem Wired.follows_iff (h : c.Wired ops) :
    c.Follows a b ↔ c.graph.Adj a b ∧ c.isOpAt a ∧ c.isOpAt b := by
  constructor
  · rintro ⟨w, i, j, ha, hb, -, -, hnext⟩
    obtain ⟨r, s, ht⟩ := h.next_eq_ok.mp hnext
    refine ⟨⟨⟨a, b, w⟩, h.threaded.mem_edges.mpr ⟨r, s, ht⟩, rfl, rfl⟩, ?_, ?_⟩
    · rw [isOpAt, ha]; rfl
    · rw [isOpAt, hb]; rfl
  · rintro ⟨hab, ha, hb⟩
    obtain ⟨i, hi⟩ := Option.isSome_iff_exists.mp ha
    obtain ⟨j, hj⟩ := Option.isSome_iff_exists.mp hb
    obtain ⟨w, r, s, ht⟩ := h.exists_track hab
    refine ⟨w, i, j, hi, hj, ?_, ?_, h.next_eq_ok.mpr ⟨_, _, ht⟩⟩
    · exact (h.mem_track (instruction?_eq_some.mp hi) w).mp (by rw [ht]; simp)
    · exact (h.mem_track (instruction?_eq_some.mp hj) w).mp (by rw [ht]; simp)

theorem DependencyChain.path (h : c.Wired ops) (hl : c.DependencyChain l) :
    c.graph.Path l ∧ l.countP c.isOpAt = l.length := by
  refine ⟨⟨?_, ?_⟩, List.countP_eq_length.mpr hl.ops⟩
  · intro n hn
    obtain ⟨i, hi⟩ := Option.isSome_iff_exists.mp (hl.ops n hn)
    exact isLive_iff.mpr ⟨_, instruction?_eq_some.mp hi⟩
  · exact hl.linked.imp fun a b hab => (h.follows_iff.mp hab).1

/-- After an operation a path goes on to another one, or it ends at the output of a wire. -/
theorem Wired.isChain_filter (h : c.Wired ops) : ∀ {p : List NodeId}, c.graph.Path p →
    (p.filter c.isOpAt).IsChain c.Follows
  | [], _ => .nil
  | [a], _ => by
    by_cases ha : c.isOpAt a <;> simp [ha]
  | a :: b :: p, hp => by
    obtain ⟨hab, hlinked⟩ := List.isChain_cons_cons.mp hp.linked
    have ih := h.isChain_filter (p := b :: p) ⟨fun n hn => hp.live n (List.mem_cons_of_mem a hn), hlinked⟩
    by_cases ha : c.isOpAt a
    · rw [List.filter_cons_of_pos ha]
      by_cases hb : c.isOpAt b
      · rw [List.filter_cons_of_pos hb] at ih ⊢
        exact List.isChain_cons_cons.mpr ⟨h.follows_iff.mpr ⟨hab, ha, hb⟩, ih⟩
      · obtain ⟨x, hx⟩ := isLive_iff.mp (hp.live b (by simp))
        cases x with
        | input w => exact absurd hx (h.not_input_of_adj hab w)
        | op i =>
          rw [isOpAt, instruction?_eq_some.mpr hx] at hb
          exact absurd rfl hb
        | output w =>
          cases p with
          | nil =>
            rw [List.filter_cons_of_neg hb]
            exact .singleton a
          | cons d p =>
            exact absurd hx (h.not_output_of_adj (List.isChain_cons_cons.mp hlinked).1 w)
    · rw [List.filter_cons_of_neg ha]
      exact ih

theorem Wired.dependencyChain_filter (h : c.Wired ops) (hp : c.graph.Path p) :
    c.DependencyChain (p.filter c.isOpAt) :=
  ⟨fun _ hn => (List.mem_filter.mp hn).2, h.isChain_filter hp⟩

theorem Wired.loads_eq (h : c.Wired ops) :
    c.graph.loads c.isOpAt = {k | ∃ l, c.DependencyChain l ∧ l.length = k} := by
  ext k
  constructor
  · rintro ⟨p, hp, rfl⟩
    exact ⟨_, h.dependencyChain_filter hp, List.countP_eq_length_filter.symm⟩
  · rintro ⟨l, hl, rfl⟩
    exact ⟨l, DependencyChain.path h hl⟩

theorem DependencyChain.eq_singleton {i : Instruction} (hl : c.DependencyChain l)
    (hi : c.instruction? n = some i) (hwires : i.wires = []) (hn : n ∈ l) : l = [n] := by
  obtain ⟨r, s, rfl⟩ := List.append_of_mem hn
  have hnone : ∀ m, ¬ c.Follows m n ∧ ¬ c.Follows n m := by
    intro m
    constructor
    · rintro ⟨w, j, k, -, hk, -, hw, -⟩
      rw [hi] at hk
      cases hk
      simp [hwires] at hw
    · rintro ⟨w, j, k, hj, -, hw, -, -⟩
      rw [hi] at hj
      cases hj
      simp [hwires] at hw
  obtain ⟨-, hright, hjoin⟩ := List.isChain_append.mp hl.linked
  cases s with
  | cons m s => exact absurd (List.isChain_cons_cons.mp hright).1 (hnone m).2
  | nil =>
    rcases List.eq_nil_or_concat r with rfl | ⟨r, m, rfl⟩
    · rfl
    · exact absurd (hjoin m (by simp) n rfl) (hnone m).1

theorem Wired.depth_eq_zero_iff (h : c.Wired ops) : c.depth = 0 ↔ c.opCount = 0 := by
  have hdepth := h.isGreatest_depth
  rw [h.loads_eq] at hdepth
  rw [h.opCount_eq, List.length_eq_zero_iff]
  constructor
  · intro hzero
    rw [List.eq_nil_iff_forall_not_mem]
    intro n hn
    obtain ⟨i, hi, -⟩ := mem_opsWhere.mp hn
    have hone : c.DependencyChain [n] := ⟨by simp [isOpAt, hi], .singleton n⟩
    have := hdepth.2 ⟨[n], hone, rfl⟩
    rw [hzero] at this
    cases this
  · intro hnone
    obtain ⟨l, hl, hlen⟩ := hdepth.1
    cases l with
    | nil => exact hlen.symm
    | cons n l =>
      obtain ⟨i, hi⟩ := Option.isSome_iff_exists.mp (hl.ops n (by simp))
      have : n ∈ c.opsWhere fun _ => true := mem_opsWhere.mpr ⟨i, hi, rfl⟩
      rw [hnone] at this
      cases this

end Circuit

/-- **The depth is the length of the longest chain of dependencies**: the greatest number of
operations on a path of the graph, and the greatest length of a list of operations each of which
directly follows the one before on a wire of both. It comes out the same along every topological
order, and there is one. An operation without wires is a chain by itself, and only without
operations is the depth zero. -/
theorem depth_is_longest_chain {c : Circuit} (hc : c.Reachable) :
    IsGreatest {k | ∃ p, c.graph.Path p ∧ p.countP c.isOpAt = k} c.depth ∧
      IsGreatest {k | ∃ l, c.DependencyChain l ∧ l.length = k} c.depth ∧
      (∃ order, c.graph.topologicalOrder? = some order ∧ c.graph.IsTopological order) ∧
      (∀ order, c.graph.IsTopological order → c.depthAlong order = c.depth) ∧
      (∀ n i, c.instruction? n = some i → i.wires = [] → c.DependencyChain [n] ∧
        ∀ l, c.DependencyChain l → n ∈ l → l = [n]) ∧
      (c.depth = 0 ↔ c.opCount = 0) := by
  obtain ⟨ops, h⟩ := hc.wired
  have hpaths := h.isGreatest_depth
  refine ⟨hpaths, h.loads_eq ▸ hpaths, h.isTopological, ?_, ?_, h.depth_eq_zero_iff⟩
  · intro order ht
    exact (Circuit.isGreatest_depthAlong ht).unique hpaths
  · intro n i hi hwires
    exact ⟨⟨by simp [Circuit.isOpAt, hi], .singleton n⟩, fun l hl hn => hl.eq_singleton hi hwires hn⟩

def staggered : Circuit :=
  (((Circuit.ofSize 3 1).appendAll [.gateOn .h ⟨0⟩, .gateAcross .cx ⟨0⟩ ⟨1⟩, .gateOn .h ⟨2⟩,
    .gateAcross .cx ⟨1⟩ ⟨2⟩, .barrier []]).remove 8).2.appendAll [.measure ⟨2⟩ ⟨0⟩, .gateOn .x ⟨0⟩]

theorem depth_of_staggered :
    let order := [6, 12, 4, 10, 2, 0, 9, 13, 1, 11, 3, 8, 5, 7]
    staggered.Reachable ∧ staggered.depth = 3 ∧
      (∃ p, staggered.graph.Path p ∧ p.countP staggered.isOpAt = 3) ∧
      staggered.DependencyChain [9, 11, 8] ∧ (∀ l, staggered.DependencyChain l → l.length ≤ 3) ∧
      staggered.graph.topologicalOrder? ≠ some order ∧ staggered.depthAlong order = 3 ∧
      (∀ l, staggered.DependencyChain l → 12 ∈ l → l = [12]) := by
  intro order
  have hreach : staggered.Reachable := by
    refine Circuit.Reachable.appendAll _ (ReflTransGen.tail ?_ (.remove _ 8))
    exact (Circuit.reachable_ofSize 3 1).appendAll _
  obtain ⟨hpaths, hchains, -, horder, halone, -⟩ := depth_is_longest_chain hreach
  have hdepth : staggered.depth = 3 := by decide +kernel
  rw [hdepth] at hpaths hchains
  have htop : staggered.graph.IsTopological order := ⟨by decide +kernel, by decide +kernel⟩
  refine ⟨hreach, hdepth, hpaths.1, ⟨by decide +kernel, ?_⟩, fun l hl => hchains.2 ⟨l, hl, rfl⟩,
    by decide +kernel, (horder order htop).trans hdepth, (halone 12 (.barrier []) (by decide +kernel) rfl).2⟩
  have h₁ : staggered.Follows 9 11 := ⟨.qubit ⟨1⟩, .gateAcross .cx ⟨0⟩ ⟨1⟩, .gateAcross .cx ⟨1⟩ ⟨2⟩,
    by decide +kernel, by decide +kernel, by decide, by decide, by decide +kernel⟩
  have h₂ : staggered.Follows 11 8 := ⟨.qubit ⟨2⟩, .gateAcross .cx ⟨1⟩ ⟨2⟩, .measure ⟨2⟩ ⟨0⟩,
    by decide +kernel, by decide +kernel, by decide, by decide, by decide +kernel⟩
  exact .cons_cons h₁ (.cons_cons h₂ (.singleton 8))

end QuantumCircuit
