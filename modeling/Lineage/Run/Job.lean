import Lineage.Run.Transform

/-! Jobs: a transform and its inputs, run at most once. The first request for the output or for the
mappings runs the hooks; the result, or the failure, is kept for all later ones. -/

namespace Lineage

inductive JobStatus where
  | pending
  | done
  | failed (reason : String)
deriving DecidableEq, Inhabited

structure Job (τ : Type) where
  run : Run
  transform : τ
  status : JobStatus := .pending
  mappings : List Mapping := []

/-- The output of a finished run and the mappings that explain it. -/
structure RunOutput where
  tree : Tree
  mappings : List Mapping
deriving Inhabited

structure JobState (σ τ : Type) where
  workspace : Workspace
  ambient : σ
  job : Job τ

abbrev JobM (σ τ : Type) := EStateM RunError (JobState σ τ)

namespace Job

variable {σ τ : Type}

def create (id : RunId) (inputs : List (SourceId × Tree)) (transform : τ) (w : Workspace) :
    Job τ × Workspace :=
  let s := Run.start id inputs w
  ({ run := s.run, transform }, s.workspace)

/-- Processes the inputs in order. -/
def processInputs (t : Transform σ τ) : List (SourceId × Tree) → Hook σ τ Unit
  | [] => pure ()
  | (id, tree) :: rest => do
    modify fun s => { s with run := { s.run with current := some id } }
    let (visit, nodes) ← Hook.onWorkspace (·.visit tree)
    t.process (← get).run.root visit nodes
    processInputs t rest

/-- All hooks in order. The current input stays as it is when one fails. -/
def hooks (t : Transform σ τ) : Hook σ τ Unit := do
  t.prepare
  processInputs t (← get).run.inputs.entries
  modify fun s => { s with run := { s.run with current := none } }
  t.conclude

/-- Runs the hooks and seals the mapping table, whether they succeed or not. -/
def runHooks (t : Transform σ τ) : JobM σ τ Unit := fun s =>
  let finished (h : HookState σ τ) (status : JobStatus) (mappings : List Mapping) : JobState σ τ :=
    { workspace := h.workspace.modifyTable h.run.table MappingTable.sealed
      ambient := h.ambient
      job := { run := h.run, transform := h.transform, status, mappings } }
  match hooks t ⟨s.workspace, s.job.run, s.ambient, s.job.transform⟩ with
  | .ok _ h => .ok () (finished h .done (h.workspace.tableEntries h.run.table))
  | .error e h => .error e (finished h (.failed e.message) [])

/-- Makes sure that the hooks have run. -/
def demand (t : Transform σ τ) : JobM σ τ Unit := do
  match (← get).job.status with
  | .pending => runHooks t
  | .done => pure ()
  | .failed reason => throw (.failedEarlier reason)

def isDone (j : Job τ) : Bool := j.status == .done

def output (t : Transform σ τ) : JobM σ τ Tree := do
  demand t
  return (← get).job.run.root.tree

def finalMappings (t : Transform σ τ) : JobM σ τ (List Mapping) := do
  demand t
  return (← get).job.mappings

def result (t : Transform σ τ) : JobM σ τ RunOutput := do
  return ⟨← output t, ← finalMappings t⟩

end Job

end Lineage
