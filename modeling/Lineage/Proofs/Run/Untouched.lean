import Lineage.Proofs.Run.Frame
import Lineage.Proofs.Run.Requests

/-! Jobs leave alone what was there before. Their transforms need not be disciplined: it is enough that
past the run they write only through proxies that it has handed out. Containers from elsewhere may be put
into the output as they are, at several places; none of them is opened there.
-/

namespace Lineage

open Progress RunState

namespace Job

variable {σ τ : Type}

/-- Nothing changes a container that was there before the job: not what is done while it runs, whether
it fails or not, and not what is done afterwards through the proxies that are kept. -/
theorem grows_of_confined (id : RunId) (inputs : List (SourceId × Tree)) (own : τ) (ambient : σ)
    (w : Workspace) :
    (∀ p, Run.Events Confines Builds (.initial id inputs w) p →
      w.heap.Grows p.state.workspace.heap) ∧
    ∀ (t : Transform σ τ) (issued : List Proxy),
      Run.Events Confines Builds (.initial id inputs w)
        ⟨(after (hooks t (launch id inputs own ambient w).hookState)).runState, issued⟩ →
      ∀ requests p,
        Run.Events Confines Builds
          ⟨(attempt (respond t) requests (launch id inputs own ambient w)).2.hookState.runState,
            issued⟩ p →
        w.heap.Grows p.state.workspace.heap := by
  refine ⟨fun p => Run.grows_of_events id inputs w, fun t issued hhooks requests p hlater => ?_⟩
  cases requests with
  | nil =>
    -- the hooks are yet to run, but what they will have handed out is over containers of the run
    have hissued := ((Run.from_start id inputs w).events hhooks).1.issued
    have hfrom : From w.heap.size ⟨(Run.start id inputs w), issued⟩ :=
      ⟨(Run.from_start id inputs w).state, hissued⟩
    exact Run.grows_of_from id inputs w (hfrom.events hlater)
  | cons first later =>
    obtain ⟨status, mappings, _, hend⟩ := exists_finished_of_pending (t := t)
      (s := launch id inputs own ambient w) rfl first later
    rw [hend] at hlater
    refine Run.grows_of_events id inputs w (hhooks.trans (.head (.beside ?_) hlater))
    exact ⟨.refl _, rfl⟩

/-- A document with one empty object. -/
def shelf : Workspace := { heap := ⟨#[.emptyObject]⟩ }

def borrowers : List (SourceId × Tree) := [(⟨"d1"⟩, .container 0)]

/-- The input is put into the output at two places and asked for at both, once through a proxy that the
run has not handed out. -/
def borrowing : List Action :=
  let root := (Run.start default borrowers shelf).run.root
  let child := root.child (.key "b") 2
  [.place root (.key "a") .root (.container 0) false, .openObject root (.key "a") .root,
    .allocateObject root (.key "b") .root,
    .put child (.key "c") (.tagged { value := .container 0, origin := some .root }),
    .openObject { child with source := ⟨"d9"⟩ } (.key "c") .root,
    .openArray ⟨0, .root, ⟨"d9"⟩, root.sink⟩ (.key "x") .root]

theorem grows_borrowing :
    let launched : JobState Unit Unit := launch default borrowers () () shelf
    let ended := (attempt (respond (.concluding borrowing)) [.output] launched).2
    ended.workspace.heap.member? (.container 1) (.key "a") = some (.container 0) ∧
      ended.workspace.heap.member? (.container 2) (.key "c") = some (.container 0) ∧
      shelf.heap.Grows ended.workspace.heap := by
  refine ⟨by decide +kernel, by decide +kernel, ?_⟩
  have hadmits : Run.AdmitsAll Confines (readied default borrowers shelf) borrowing := by
    decide +kernel
  have hconfined : Confined (.concluding borrowing : Transform Unit Unit) default borrowers () ()
      shelf := confined_concluding hadmits
  obtain ⟨issued, hevents⟩ := hconfined
  exact (grows_of_confined default borrowers () () shelf).2 (.concluding borrowing) issued hevents
    [.output] _ .refl

end Job

end Lineage
