/-!
# Sorting

Sorting a list by insertion. Elements that come in either order keep the order they have.
-/

namespace QuantumCircuit

variable {α : Type}

def insertBy (le : α → α → Bool) (a : α) : List α → List α
  | [] => [a]
  | b :: rest => if le a b then a :: b :: rest else b :: insertBy le a rest

def sortBy (le : α → α → Bool) (as : List α) : List α := as.foldr (insertBy le) []

end QuantumCircuit
