import Lineage.Proofs.Output.Put
import Lineage.Run.Job

/-! The result of a job that has not run yet. Its hooks run once, and what comes out is read off the
state that they leave behind. -/

namespace Lineage

variable {σ τ : Type}

def HookState.runState (h : HookState σ τ) : RunState := ⟨h.workspace, h.run⟩

/-- The state from which the hooks of a job run. -/
def JobState.hookState (s : JobState σ τ) : HookState σ τ :=
  ⟨s.workspace, s.job.run, s.ambient, s.job.transform⟩

/-- The state that hooks leave behind, with the mapping table sealed and the result kept. -/
def HookState.finished (h : HookState σ τ) (status : JobStatus) (mappings : List Mapping) :
    JobState σ τ :=
  { workspace := h.workspace.modifyTable h.run.table MappingTable.sealed
    ambient := h.ambient
    job := { run := h.run, transform := h.transform, status, mappings } }

namespace Job

/-- A new job with its surroundings. -/
def launch (id : RunId) (inputs : List (SourceId × Tree)) (own : τ) (ambient : σ) (w : Workspace) :
    JobState σ τ :=
  let (job, workspace) := create id inputs own w
  ⟨workspace, ambient, job⟩

/-- The state in which an input is processed. -/
def turned (s : HookState σ τ) (source : SourceId) (tree : Tree) : HookState σ τ :=
  { s with
    workspace := (s.workspace.visit tree).2
    run := { s.run with current := some source } }

variable {t : Transform σ τ} {s : JobState σ τ}

theorem demand_of_pending (hs : s.job.status = .pending) : demand t s = runHooks t s := by
  unfold demand
  rw [get_bind, hs]

theorem demand_of_done (hs : s.job.status = .done) : demand t s = .ok () s := by
  unfold demand
  rw [get_bind, hs]
  rfl

theorem output_of_demand {s' : JobState σ τ} (hd : demand t s = .ok () s') :
    output t s = .ok s'.job.run.root.tree s' := (bind_of_ok hd).trans rfl

theorem finalMappings_of_demand {s' : JobState σ τ} (hd : demand t s = .ok () s') :
    finalMappings t s = .ok s'.job.mappings s' := (bind_of_ok hd).trans rfl

/-- The first demand runs the hooks. It fails as they do, and otherwise it keeps the mappings that they
have recorded. -/
theorem demand_cases (hs : s.job.status = .pending) :
    (∃ e h, hooks t s.hookState = .error e h ∧
      demand t s = .error e (h.finished (.failed e.message) [])) ∨
    ∃ h, hooks t s.hookState = .ok () h ∧
      demand t s = .ok () (h.finished .done (h.workspace.tableEntries h.run.table)) := by
  rw [demand_of_pending hs]
  cases hh : hooks t s.hookState with
  | error e h =>
    refine .inl ⟨e, h, rfl, ?_⟩
    simp only [JobState.hookState] at hh
    simp only [runHooks, hh, HookState.finished]
  | ok u h =>
    refine .inr ⟨h, rfl, ?_⟩
    simp only [JobState.hookState] at hh
    simp only [runHooks, hh, HookState.finished]

/-- A job that is done gives its output root with the mappings that it has kept. -/
theorem result_of_demand {s' : JobState σ τ} (hd : demand t s = .ok () s')
    (hs' : s'.job.status = .done) :
    result t s = .ok ⟨s'.job.run.root.tree, s'.job.mappings⟩ s' := by
  unfold result
  rw [bind_of_ok (output_of_demand hd), bind_of_ok (finalMappings_of_demand (demand_of_done hs'))]
  rfl

/-- A job fails as its hooks do, and it succeeds with the root of the output and with the mappings
that the hooks have recorded. -/
theorem result_cases (hs : s.job.status = .pending) :
    (∃ e h, hooks t s.hookState = .error e h ∧
      result t s = .error e (h.finished (.failed e.message) [])) ∨
    ∃ h, hooks t s.hookState = .ok () h ∧
      result t s = .ok ⟨h.run.root.tree, h.workspace.tableEntries h.run.table⟩
        (h.finished .done (h.workspace.tableEntries h.run.table)) := by
  rcases demand_cases (t := t) hs with ⟨e, h, hh, hd⟩ | ⟨h, hh, hd⟩
  · exact .inl ⟨e, h, hh, bind_of_error (bind_of_error hd)⟩
  · exact .inr ⟨h, hh, result_of_demand hd rfl⟩

end Job

end Lineage
