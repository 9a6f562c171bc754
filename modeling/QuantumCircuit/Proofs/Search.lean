import Mathlib.Data.List.Chain
import Mathlib.Data.List.Nodup
import Mathlib.Data.List.Perm.Subperm
import Mathlib.Logic.Relation
import QuantumCircuit.Graph.Order

/-!
# The search for a topological order

On a graph without cycles the depth-first search finishes every live node after all its
successors, whatever the numbers of the nodes and the order of the edges, so the latest
finished node comes first in a topological order (`topologicalOrder?_eq_some`).
-/

namespace QuantumCircuit.Graph

open Relation

variable {α β : Type} {g : Graph α β}

def Adj (g : Graph α β) (a b : NodeId) : Prop := ∃ e ∈ g.edges, e.source = a ∧ e.target = b

def Acyclic (g : Graph α β) : Prop := ∀ n, ¬ TransGen g.Adj n n

def Closed (g : Graph α β) : Prop := ∀ e ∈ g.edges, g.isLive e.source ∧ g.isLive e.target

theorem acyclic_of_rank (rank : NodeId → Nat) (h : ∀ a b, g.Adj a b → rank a < rank b) :
    g.Acyclic := by
  have hlt : ∀ a b, TransGen g.Adj a b → rank a < rank b := by
    intro a b hab
    induction hab with
    | single h' => exact h _ _ h'
    | tail _ h' ih => exact Nat.lt_trans ih (h _ _ h')
  intro n hn
  exact Nat.lt_irrefl _ (hlt n n hn)

theorem mem_successors {n m : NodeId} : m ∈ g.successors n ↔ g.Adj n m := by
  simp only [successors, Adj, List.mem_reverse, List.mem_map, mem_edgesAt, Edge.near]
  constructor
  · rintro ⟨e, ⟨he, hs⟩, ht⟩; exact ⟨e, he, hs, ht⟩
  · rintro ⟨e, he, hs, ht⟩; exact ⟨e, ⟨he, hs⟩, ht⟩

/-! ## Lists of finished nodes -/

/-- Every listed node is listed once and has all its successors after it. -/
def Finished (g : Graph α β) : List NodeId → Prop
  | [] => True
  | n :: rest => n ∉ rest ∧ (∀ m, g.Adj n m → m ∈ rest) ∧ g.Finished rest

namespace Finished

theorem nodup : ∀ {order : List NodeId}, g.Finished order → order.Nodup
  | [], _ => List.nodup_nil
  | _ :: _, h => List.nodup_cons.mpr ⟨h.1, nodup h.2.2⟩

theorem mem_of_adj : ∀ {order : List NodeId} {a b : NodeId}, g.Finished order → a ∈ order →
    g.Adj a b → b ∈ order
  | n :: rest, a, b, h, ha, hab => by
    rcases List.mem_cons.mp ha with rfl | ha
    · exact List.mem_cons_of_mem _ (h.2.1 b hab)
    · exact List.mem_cons_of_mem _ (mem_of_adj h.2.2 ha hab)

theorem sublist : ∀ {order : List NodeId} {n : NodeId} {p : List NodeId}, g.Finished order →
    n ∈ order → List.IsChain g.Adj (n :: p) → List.Sublist (n :: p) order
  | k :: rest, n, p, h, hn, hp => by
    by_cases hk : n = k
    · subst hk
      cases p with
      | nil => exact List.singleton_sublist.mpr hn
      | cons m p =>
        rw [List.isChain_cons_cons] at hp
        exact (sublist h.2.2 (h.2.1 m hp.1) hp.2).cons_cons n
    · have hn' : n ∈ rest := (List.mem_cons.mp hn).resolve_left hk
      exact (sublist h.2.2 hn' hp).cons k

theorem respects : ∀ {order : List NodeId}, g.Finished order → g.respects order = true
  | [], _ => rfl
  | n :: rest, h => by
    simp only [Graph.respects, Bool.and_eq_true, List.all_eq_true, decide_eq_true_eq]
    refine ⟨?_, respects h.2.2⟩
    intro e he hs
    obtain ⟨hedge, htarget⟩ := mem_edgesAt.mp he
    have hadj : g.Adj e.source n := ⟨e, hedge, rfl, htarget⟩
    rcases List.mem_cons.mp hs with hs | hs
    · rw [hs] at hadj; exact h.1 (h.2.1 n hadj)
    · exact h.1 (mem_of_adj h.2.2 hs hadj)

end Finished

/-! ## The search -/

/-- `done'` is what a search from the nodes `starts` makes of the finished nodes `done`. -/
structure Extends (g : Graph α β) (starts done done' : List NodeId) : Prop where
  finished : g.Finished done'
  keeps : ∀ n ∈ done, n ∈ done'
  visits : ∀ n ∈ starts, n ∈ done'
  reached : ∀ m ∈ done', m ∈ done ∨ ∃ n ∈ starts, ReflTransGen g.Adj n m

theorem foldl_extends {step : List NodeId → NodeId → List NodeId} :
    ∀ (starts done : List NodeId), g.Finished done →
      (∀ n ∈ starts, ∀ done, g.Finished done → g.Extends [n] done (step done n)) →
      g.Extends starts done (starts.foldl step done)
  | [], done, hd, _ => ⟨hd, fun _ h => h, by simp, fun _ h => .inl h⟩
  | n :: starts, done, hd, hstep => by
    have h₁ := hstep n (by simp) done hd
    have h₂ := foldl_extends starts (step done n) h₁.finished fun m hm => hstep m (by simp [hm])
    rw [List.foldl_cons]
    refine ⟨h₂.finished, fun m hm => h₂.keeps m (h₁.keeps m hm), ?_, ?_⟩
    · intro m hm
      rcases List.mem_cons.mp hm with rfl | hm
      · exact h₂.keeps m (h₁.visits m (by simp))
      · exact h₂.visits m hm
    · intro m hm
      rcases h₂.reached m hm with hm | ⟨k, hk, hkm⟩
      · rcases h₁.reached m hm with hm | ⟨k, hk, hkm⟩
        · exact .inl hm
        · rw [List.mem_singleton.mp hk] at hkm
          exact .inr ⟨n, by simp, hkm⟩
      · exact .inr ⟨k, by simp [hk], hkm⟩

def Within (g : Graph α β) (n : NodeId) (depth : Nat) : Prop :=
  ∀ p, List.IsChain g.Adj (n :: p) → p.length < depth

theorem visit_extends (hg : g.Acyclic) : ∀ (depth : Nat) (n : NodeId) (done : List NodeId),
    g.Within n depth → g.Finished done → g.Extends [n] done (g.visit depth done n)
  | 0, n, done, hn, hd => absurd (hn [] (List.isChain_singleton n)) (Nat.not_lt_zero _)
  | depth + 1, n, done, hn, hd => by
    by_cases hmem : n ∈ done
    · rw [visit, if_pos hmem]
      exact ⟨hd, fun _ h => h, by simpa using hmem, fun _ h => .inl h⟩
    · rw [visit, if_neg hmem]
      have hs := foldl_extends (g.successors n) done hd fun m hm done' hd' =>
        visit_extends hg depth m done' (fun p hp => by
          have := hn (m :: p) (List.isChain_cons_cons.mpr ⟨mem_successors.mp hm, hp⟩)
          simp only [List.length_cons] at this
          omega) hd'
      -- a node finished on the way is reached from a successor of `n`, so it is not `n`
      have hfresh : n ∉ (g.successors n).foldl (g.visit depth) done := by
        intro h
        rcases hs.reached n h with h | ⟨m, hm, hmn⟩
        · exact hmem h
        · exact hg n (TransGen.head' (mem_successors.mp hm) hmn)
      refine ⟨⟨hfresh, fun m hm => hs.visits m (mem_successors.mpr hm), hs.finished⟩, ?_, ?_, ?_⟩
      · exact fun m hm => List.mem_cons_of_mem _ (hs.keeps m hm)
      · simp
      · intro m hm
        rcases List.mem_cons.mp hm with rfl | hm
        · exact .inr ⟨m, by simp, .refl⟩
        · rcases hs.reached m hm with hm | ⟨k, hk, hkm⟩
          · exact .inl hm
          · exact .inr ⟨n, by simp, ReflTransGen.head (mem_successors.mp hk) hkm⟩

theorem nodup_of_isChain (hg : g.Acyclic) {p : List NodeId} (hp : List.IsChain g.Adj p) :
    p.Nodup := by
  have htrans : List.IsChain (TransGen g.Adj) p := hp.imp fun _ _ h => TransGen.single h
  refine htrans.pairwise.imp ?_
  rintro a b hab rfl
  exact hg a hab

theorem isLive_of_reflTransGen (hc : g.Closed) {a b : NodeId} (ha : g.isLive a)
    (h : ReflTransGen g.Adj a b) : g.isLive b := by
  cases h with
  | refl => exact ha
  | tail _ h =>
    obtain ⟨e, he, -, rfl⟩ := h
    exact (hc e he).2

theorem within_nodeCount (hg : g.Acyclic) (hc : g.Closed) {n : NodeId} (hn : n ∈ g.nodes) :
    g.Within n g.nodeCount := by
  intro p hp
  have hlive : ∀ m ∈ n :: p, m ∈ g.nodes := by
    intro m hm
    rcases List.mem_cons.mp hm with rfl | hm
    · exact hn
    · have hreach : ReflTransGen g.Adj n m := List.IsChain.rel_cons (hp.imp fun _ _ h => .single h) hm
      exact mem_nodes.mpr (isLive_of_reflTransGen hc (mem_nodes.mp hn) hreach)
  exact (List.subperm_of_subset (nodup_of_isChain hg hp) hlive).length_le

theorem nodup_nodes (g : Graph α β) : g.nodes.Nodup := List.nodup_range.filter _

/-- Without cycles there is a topological order: all live nodes, once each, every one before
its successors. -/
theorem topologicalOrder?_eq_some (hg : g.Acyclic) (hc : g.Closed) :
    g.topologicalOrder? = some g.searchOrder ∧ g.Finished g.searchOrder ∧
      g.searchOrder.Perm g.nodes := by
  have h : g.Extends g.nodes [] g.searchOrder :=
    foldl_extends g.nodes [] trivial fun n hn done hd =>
      visit_extends hg g.nodeCount n done (within_nodeCount hg hc hn) hd
  refine ⟨by simp [topologicalOrder?, h.finished.respects], h.finished, ?_⟩
  rw [List.perm_ext_iff_of_nodup h.finished.nodup g.nodup_nodes]
  intro n
  refine ⟨fun hn => ?_, h.visits n⟩
  rcases h.reached n hn with hn | ⟨m, hm, hmn⟩
  · cases hn
  · exact mem_nodes.mpr (isLive_of_reflTransGen hc (mem_nodes.mp hm) hmn)

end QuantumCircuit.Graph
