import Lineage.Run.Basic

/-! Transforms: what is done to the inputs of a run. A transform has a hook before the inputs, one
for each input, and one after them. Hooks change the run, the transform's own state `τ`, and
whatever surroundings `σ` the caller shares with them, such as document stores. -/

namespace Lineage

structure HookState (σ τ : Type) where
  workspace : Workspace
  run : Run
  ambient : σ
  transform : τ

abbrev Hook (σ τ : Type) := EStateM RunError (HookState σ τ)

structure Transform (σ τ : Type) where
  prepare : Hook σ τ Unit := pure ()
  /-- Gets the output root and a new traversal of an input. -/
  process : Proxy → TraversalId → Cursor → Hook σ τ Unit
  conclude : Hook σ τ Unit := pure ()

namespace Hook

variable {σ τ α : Type}

/-- Runs an operation of the run inside a hook. -/
def liftRun (m : RunM α) : Hook σ τ α := fun s =>
  match m ⟨s.workspace, s.run⟩ with
  | .ok a r => .ok a { s with workspace := r.workspace, run := r.run }
  | .error e r => .error e { s with workspace := r.workspace, run := r.run }

instance : MonadLift RunM (Hook σ τ) := ⟨liftRun⟩

/-- Changes the workspace. -/
def onWorkspace (f : Workspace → α × Workspace) : Hook σ τ α :=
  modifyGet fun s =>
    let (a, workspace) := f s.workspace
    (a, { s with workspace })

def heap : Hook σ τ Heap := return (← get).workspace.heap

/-- Does something for every entry below `base`, yielding each when its turn comes. -/
def forEntries (visit : TraversalId) (base : Pointer) (f : Node → Hook σ τ Unit) :
    List (Segment × Tree) → Hook σ τ Unit
  | [] => pure ()
  | entry :: rest => do
    f (← onWorkspace (·.traverse visit (·.yield base entry)))
    forEntries visit base f rest

/-- Does something for every node that a cursor yields. -/
def forNodes (visit : TraversalId) (c : Cursor) (f : Node → Hook σ τ Unit) : Hook σ τ Unit := do
  match c.scalar with
  | some t => f (Cursor.scalarNode c.base t)
  | none => pure ()
  forEntries visit c.base f c.rest

/-- Does something for every member that a node has now. -/
def forMembers (visit : TraversalId) (n : Node) (f : Node → Hook σ τ Unit) : Hook σ τ Unit := do
  forNodes visit ((← heap).children n) f

end Hook

end Lineage
