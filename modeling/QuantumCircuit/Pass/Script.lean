import QuantumCircuit.Pass.Basic

/-!
# Scripted passes

A pass given by a list of actions. They are done in order up to the first that fails; what
was done before it stays done.
-/

namespace QuantumCircuit

variable {κ : Type} [DecidableEq κ] {V : κ → Type}

inductive Action (V : κ → Type) where
  | append (i : Instruction)
  | remove (n : NodeId)
  | check
  | record (k : κ) (value : Circuit → V k)
  | fail (reason : String)
  | rejectConfiguration (reason : String)

namespace Action

def perform (pass : String) (c : Circuit) (p : Properties V) : Action V → Outcome V
  | append i =>
    match c.append i with
    | (.ok _, c') => { result := .ok (), circuit := c', properties := p }
    | (.error e, c') => { result := .error (.circuit e), circuit := c', properties := p }
  | remove n =>
    match c.remove n with
    | (.ok _, c') => { result := .ok (), circuit := c', properties := p }
    | (.error e, c') => { result := .error (.circuit e), circuit := c', properties := p }
  | check => { result := c.check.mapError .circuit, circuit := c, properties := p }
  | record k value =>
    { result := .ok (), circuit := c, properties := p.insert (.custom k) (value c) }
  | fail reason => { result := .error (.failed pass reason), circuit := c, properties := p }
  | rejectConfiguration reason =>
    { result := .error (.badConfiguration reason), circuit := c, properties := p }

def performAll (pass : String) (c : Circuit) (p : Properties V) : List (Action V) → Outcome V
  | [] => { result := .ok (), circuit := c, properties := p }
  | a :: rest =>
    let o := a.perform pass c p
    match o.result with
    | .error _ => o
    | .ok () => (performAll pass o.circuit o.properties rest).after o.log

end Action

def Pass.ofScript (name : String) (kind : PassKind) (applies : Circuit → Properties V → Bool)
    (script : List (Action V)) : Pass V where
  name := name
  kind := kind
  applies := applies
  run c p := Action.performAll name c p script

end QuantumCircuit
