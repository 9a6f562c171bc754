import QuantumCircuit.Pass.Reset

/-!
# Pipelines

A pipeline runs its passes in order and stops at the first that fails. It can check the
structure of the circuit after every pass. The usual pipeline is made from a plan: which of
the cleanup passes to run, whether to check, and the properties to start from.
-/

namespace QuantumCircuit

variable {κ : Type} [DecidableEq κ] {V : κ → Type}

structure Pipeline (V : κ → Type) where
  passes : List (Pass V) := []
  checks : Bool := false

namespace Pipeline

def passNames (pl : Pipeline V) : List String := pl.passes.map (·.name)

/-- The result of a pass, or the defect it left behind if defects are looked for. -/
def verdict (checks : Bool) (name : String) (o : Outcome V) : Except PassError Unit :=
  match o.result with
  | .error e => .error e
  | .ok () => if checks then o.circuit.check.mapError (.failed name ·.message) else .ok ()

def runPasses (checks : Bool) (c : Circuit) (p : Properties V) : List (Pass V) → Outcome V
  | [] => { result := .ok (), circuit := c, properties := p, log := [.finished c.opCount] }
  | pass :: rest =>
    if pass.applies c p then
      let o := (pass.run c p).after [.running pass.name]
      match verdict checks pass.name o with
      | .error e => { o with result := .error e }
      | .ok () =>
        (runPasses checks o.circuit o.properties rest).after
          (o.log ++ [.completed pass.name o.circuit.opCount])
    else (runPasses checks c p rest).after [.skipped pass.name]

def run (pl : Pipeline V) (c : Circuit) (p : Properties V) : Outcome V :=
  (runPasses pl.checks c p pl.passes).after [.started pl.passes.length c.qubitCount]

end Pipeline

structure CleanupOptions where
  mergeResets : Bool := true
  trimResets : Bool := true
  check : Bool := false
deriving DecidableEq, Repr, Inhabited

def CleanupOptions.pipeline (o : CleanupOptions) : Pipeline V where
  passes := (if o.mergeResets then [Pass.mergeResets] else []) ++
    (if o.trimResets then [Pass.trimResets] else [])
  checks := o.check

structure CleanupPlan (V : κ → Type) where
  options : CleanupOptions := {}
  properties : Properties V := .empty

namespace CleanupPlan

def withOptions (plan : CleanupPlan V) (options : CleanupOptions) : CleanupPlan V :=
  { plan with options }

def withMerging (plan : CleanupPlan V) (on : Bool) : CleanupPlan V :=
  { plan with options.mergeResets := on }

def withTrimming (plan : CleanupPlan V) (on : Bool) : CleanupPlan V :=
  { plan with options.trimResets := on }

def withChecks (plan : CleanupPlan V) (on : Bool) : CleanupPlan V :=
  { plan with options.check := on }

def withProperties (plan : CleanupPlan V) (properties : Properties V) : CleanupPlan V :=
  { plan with properties }

def build (plan : CleanupPlan V) : Pipeline V × Properties V :=
  (plan.options.pipeline, plan.properties)

end CleanupPlan

end QuantumCircuit
