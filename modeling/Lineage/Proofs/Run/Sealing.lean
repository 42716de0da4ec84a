import Lineage.Proofs.Run.Descent
import Lineage.Proofs.Run.Requests

/-! The end of a job. Its table is sealed with its last hook, whether that fails or not, and then all
proxies that descend from the output root are closed, whoever kept them. A proxy that descends from one
with another sink is not: its sink is nobody's to seal. -/

namespace Lineage

open Progress RunState

variable {σ τ : Type}

/-- A finished job takes nothing through a legitimate proxy. -/
theorem RunState.Legitimate.accepts_finished {h : HookState σ τ} {p : Proxy}
    (hp : h.runState.Legitimate p) (status : JobStatus) (mappings : List Mapping) :
    (h.finished status mappings).workspace.accepts p.sink = false := by
  rw [hp.sink_eq]
  exact Workspace.accepts_sealed _ _

namespace Job

/-- Once a job has run, every direct write through a proxy that descends from its root is refused and
changes nothing, so that the job answers as before. It does not matter how the run ended, what the
transform did to other proxies and containers meanwhile, or what else is wrong with the writes. -/
theorem frozen_of_requests (t : Transform σ τ) (id : RunId) (inputs : List (SourceId × Tree))
    (own : τ) (ambient : σ) (w : Workspace) {issued : List Proxy}
    (hhooks : Run.Events Descends Continues (.initial id inputs w)
      ⟨(after (hooks t (launch id inputs own ambient w).hookState)).runState, issued⟩)
    (first : Request) (later : List Request) (writes : List DirectWrite)
    (hkept : ∀ d ∈ writes, d.proxy ∈ issued) :
    let ended := (attempt (respond t) (first :: later) (launch id inputs own ambient w)).2
    let (answers, workspace) := attempt DirectWrite.run writes ended.workspace
    (∀ answer ∈ answers, ∃ e, answer = .error e) ∧ workspace = ended.workspace ∧
      ∀ requests, attempt (respond t) requests { ended with workspace } =
        attempt (respond t) requests ended := by
  intro ended
  have hrooted := (rooted_initial id inputs w).events hhooks
  obtain ⟨status, mappings, _, hend⟩ := exists_finished_of_pending (t := t)
    (s := launch id inputs own ambient w) rfl first later
  have hclosed : ∀ d ∈ writes, ended.workspace.accepts d.proxy.sink = false := by
    intro d hd
    have hended : ended = _ := hend
    rw [hended]
    exact (hrooted.legitimate _ (hkept d hd)).accepts_finished status mappings
  obtain ⟨errors, herrors⟩ := DirectWrite.attempt_of_closed hclosed
  rw [herrors]
  refine ⟨fun answer ha => ?_, rfl, fun requests => rfl⟩
  obtain ⟨e, _, rfl⟩ := List.mem_map.mp ha
  exact ⟨e, rfl⟩

/-- One object is put into the output root through its own proxy, the other through a forged one. -/
def smuggling : List Action :=
  [.allocateObject (Run.start default [] Run.customs).run.root (.key "a") .root,
    .allocateObject Run.forged (.key "b") .root]

/-- What a job that smuggles leaves behind. -/
def smuggled : JobState Unit Unit :=
  (attempt (respond (.concluding smuggling)) [.output] (launch default [] () () Run.customs)).2

def souvenir : Assignment := .tagged { value := .null, origin := some .root }

/-- Late writes to the output root and to the first object. -/
def souvenirs : List DirectWrite :=
  let root := (Run.start default [] Run.customs).run.root
  [.put root (.key "c") souvenir, .push (root.child (.key "a") 1) souvenir]

theorem frozen_smuggled :
    let (answers, workspace) := attempt DirectWrite.run souvenirs smuggled.workspace
    (∀ answer ∈ answers, ∃ e, answer = .error e) ∧ workspace = smuggled.workspace := by
  let p : Progress := .initial default [] Run.customs
  let q : Progress := p.perform (.allocateObject p.state.run.root (.key "a") .root)
  have hlegitimate : Run.Events Descends Continues p q := .single (.act _ (by decide +kernel))
  have hstray := event_stray q (.allocateObject Run.forged (.key "b") .root)
  have hevents : Run.Events Descends Continues p
      ⟨(smuggling.foldl Progress.perform p).state, q.issued⟩ := hlegitimate.tail hstray
  have hhooks : (after (hooks (.concluding smuggling)
      (launch default [] () () Run.customs : JobState Unit Unit).hookState)).runState =
      (smuggling.foldl Progress.perform p).state := Hook.runState_carryOut smuggling _ p rfl
  rw [← hhooks] at hevents
  have hkept : ∀ d ∈ souvenirs, d.proxy ∈ q.issued := by decide +kernel
  have hfrozen := frozen_of_requests (.concluding smuggling) default [] () () Run.customs hevents
    .output [] souvenirs hkept
  exact ⟨hfrozen.1, hfrozen.2.1⟩

/-- The object that was smuggled in is not frozen, although the run has handed out the proxy for it. -/
theorem not_frozen_smuggled :
    let child := Run.forged.child (.key "b") 2
    let (answers, workspace) := attempt DirectWrite.run [.put child (.key "c") souvenir]
      smuggled.workspace
    child ∈ (smuggling.foldl Progress.perform (.initial default [] Run.customs)).issued ∧
      smuggled.job.status = .done ∧ answers = [.ok ()] ∧
      smuggled.workspace.heap.member? child.tree (.key "c") = none ∧
      workspace.heap.member? child.tree (.key "c") = some .null := by
  decide +kernel

end Job

end Lineage
