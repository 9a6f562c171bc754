import QuantumCircuit.Graph.Basic

/-!
# Topological order

A depth-first search visits the live nodes in ascending order and, from each, the targets of
its edges, the oldest edge first. A node is finished once all its successors are, so the
finished nodes, the latest first, are in topological order unless there is a cycle.
-/

namespace QuantumCircuit.Graph

variable {α β : Type}

def successors (g : Graph α β) (n : NodeId) : List NodeId :=
  ((g.outgoing n).map (·.target)).reverse

/-- Search from `n`. `done` lists the finished nodes, the latest first; `depth` bounds how
far the search may go from `n`. -/
def visit (g : Graph α β) : (depth : Nat) → (done : List NodeId) → NodeId → List NodeId
  | 0, done, _ => done
  | depth + 1, done, n =>
    if n ∈ done then done else n :: (g.successors n).foldl (g.visit depth) done

/-- Every live node, in the reverse of the order in which the search finishes them. A path
without repetition has at most as many nodes as are live, which bounds the search. -/
def searchOrder (g : Graph α β) : List NodeId := g.nodes.foldl (g.visit g.nodeCount) []

def respects (g : Graph α β) : List NodeId → Bool
  | [] => true
  | n :: rest => (g.incoming n).all (fun e => e.source ∉ n :: rest) && g.respects rest

/-- The live nodes, each before its successors; there is no such order if there is a cycle. -/
def topologicalOrder? (g : Graph α β) : Option (List NodeId) :=
  if g.respects g.searchOrder then some g.searchOrder else none

def sourceLevel (g : Graph α β) (levels : List (NodeId × Nat)) (n : NodeId) : Nat :=
  ((g.incoming n).map fun e => (levels.lookup e.source).getD 0).foldr max 0

def levels (g : Graph α β) (weight : NodeId → Nat) (order : List NodeId) : List (NodeId × Nat) :=
  order.foldl (fun table n => (n, g.sourceLevel table n + weight n) :: table) []

end QuantumCircuit.Graph
