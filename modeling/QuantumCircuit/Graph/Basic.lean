/-!
# Directed graphs with lasting node numbers

A node keeps its number until it is removed; a freed number is given out again, the one
freed last first. Edges carry a label and are kept newest first, and so are the edges
seen from either end of a node.
-/

namespace QuantumCircuit

abbrev NodeId := Nat

structure Edge (β : Type) where
  source : NodeId
  target : NodeId
  label : β
deriving DecidableEq, Repr

inductive Direction where
  | forward
  | backward
deriving DecidableEq, Repr

namespace Edge

variable {β : Type}

/-- The end that an edge is followed from. -/
def near (e : Edge β) : Direction → NodeId
  | .forward => e.source
  | .backward => e.target

def far (e : Edge β) : Direction → NodeId
  | .forward => e.target
  | .backward => e.source

end Edge

/-- Nodes carry values of `α` and edges labels of `β`. A slot that holds no value is free. -/
structure Graph (α β : Type) where
  slots : Array (Option α) := #[]
  free : List NodeId := []
  edges : List (Edge β) := []
deriving DecidableEq, Repr

namespace Graph

variable {α β : Type}

def node? (g : Graph α β) (n : NodeId) : Option α := g.slots[n]?.join

def isLive (g : Graph α β) (n : NodeId) : Bool := (g.node? n).isSome

def nodes (g : Graph α β) : List NodeId := (List.range g.slots.size).filter g.isLive

def nodeCount (g : Graph α β) : Nat := g.nodes.length

def edgeCount (g : Graph α β) : Nat := g.edges.length

def edgesAt (g : Graph α β) (d : Direction) (n : NodeId) : List (Edge β) :=
  g.edges.filter (·.near d == n)

abbrev incoming (g : Graph α β) (n : NodeId) : List (Edge β) := g.edgesAt .backward n

abbrev outgoing (g : Graph α β) (n : NodeId) : List (Edge β) := g.edgesAt .forward n

def addNode (g : Graph α β) (a : α) : NodeId × Graph α β :=
  match g.free with
  | n :: rest => (n, { g with slots := g.slots.setIfInBounds n (some a), free := rest })
  | [] => (g.slots.size, { g with slots := g.slots.push (some a) })

def addEdge (g : Graph α β) (e : Edge β) : Graph α β := { g with edges := e :: g.edges }

/-- Takes out the newest edge equal to `e`. -/
def removeEdge [DecidableEq β] (g : Graph α β) (e : Edge β) : Graph α β :=
  { g with edges := g.edges.erase e }

def removeNode (g : Graph α β) (n : NodeId) : Graph α β :=
  if g.isLive n then
    { slots := g.slots.setIfInBounds n none
      free := n :: g.free
      edges := g.edges.filter fun e => e.source != n && e.target != n }
  else g

/-! ## The nodes after a change -/

@[simp] theorem node?_addEdge (g : Graph α β) (e : Edge β) (n : NodeId) :
    (g.addEdge e).node? n = g.node? n := rfl

@[simp] theorem node?_removeEdge [DecidableEq β] (g : Graph α β) (e : Edge β) (n : NodeId) :
    (g.removeEdge e).node? n = g.node? n := rfl

theorem lt_size_of_isLive {g : Graph α β} {n : NodeId} (h : g.isLive n) : n < g.slots.size := by
  refine Nat.lt_of_not_le fun hn => ?_
  simp [isLive, node?, Array.getElem?_eq_none hn] at h

theorem node?_removeNode (g : Graph α β) (m n : NodeId) :
    (g.removeNode m).node? n = if n = m then none else g.node? n := by
  unfold removeNode
  by_cases hm : g.isLive m
  · by_cases hn : n = m
    · subst hn
      simp [hm, node?, lt_size_of_isLive hm]
    · simp [hm, node?, hn, Array.getElem?_setIfInBounds_ne (Ne.symm hn)]
  · rw [if_neg hm]
    by_cases hn : n = m
    · subst hn
      simpa [isLive] using hm
    · simp [hn]

theorem mem_edgesAt {g : Graph α β} {d : Direction} {n : NodeId} {e : Edge β} :
    e ∈ g.edgesAt d n ↔ e ∈ g.edges ∧ e.near d = n := by
  simp [edgesAt]

theorem mem_nodes {g : Graph α β} {n : NodeId} : n ∈ g.nodes ↔ g.isLive n := by
  simp only [nodes, List.mem_filter, List.mem_range, and_iff_right_iff_imp]
  exact lt_size_of_isLive

end Graph

end QuantumCircuit
