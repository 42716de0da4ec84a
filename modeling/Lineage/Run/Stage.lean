import Lineage.Run.Job

/-! Stages: a job whose inputs are read from a document store and whose output is registered there.
-/

namespace Lineage

/-- The workspace and what the caller shares with the hooks of a stage. -/
structure StageState (σ : Type) where
  workspace : Workspace
  ambient : σ

abbrev StageM (σ : Type) := EStateM RunError (StageState σ)

namespace Stage

variable {σ τ : Type}

/-- Asks a store, which does not change. -/
def query {α : Type} (f : σ → Except StoreError α) : StageM σ α := do
  match f (← get).ambient with
  | .ok a => return a
  | .error e => throw (.store e)

/-- Changes a store. -/
def update (f : σ → Except StoreError σ) : StageM σ Unit := do
  let ambient ← query f
  modify ({ · with ambient })

/-- Runs a job on the trees it is given. -/
def runJob (id : RunId) (inputs : List (SourceId × Tree)) (t : Transform σ τ) (own : τ) :
    StageM σ RunOutput := fun s =>
  let (job, workspace) := Job.create id inputs own s.workspace
  match Job.result t ⟨workspace, s.ambient, job⟩ with
  | .ok a j => .ok a ⟨j.workspace, j.ambient⟩
  | .error e j => .error e ⟨j.workspace, j.ambient⟩

/-- Reads the inputs, runs the transform on them, writes the output tree under its name, and retains
the mappings for it. -/
def run (store : DocumentStore σ) (id : RunId) (inputs : List SourceId) (output : SourceId)
    (t : Transform σ τ) (own : τ) : StageM σ RunOutput := do
  let trees ← inputs.mapM fun input => return (input, ← query (store.getTree · input))
  let result ← runJob id trees t own
  update (store.putTree · output result.tree)
  update (store.putMappings · output result.mappings)
  return result

end Stage

end Lineage
