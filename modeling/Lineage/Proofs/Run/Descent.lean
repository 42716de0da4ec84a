import Lineage.Proofs.Run.Events
import Lineage.Proofs.Run.Explained

/-! Proxies that descend from the output root. A transform may make a proxy over a container of the run
with a pointer and a sink of its own choice, and what the run answers to it inherits both. The root has
the sink of the run and its true pointer, and so has whatever the run hands out for the root, or for what
it has handed out like this before, whatever else is done in between. -/

namespace Lineage

namespace RunState

/-- Whatever the run has registered is there. -/
def Bounded (s : RunState) : Prop :=
  ∀ id path, s.AllocatedAt id path → id < s.workspace.heap.size

/-- The run goes on. It has what it started with, and what was registered stays registered. -/
structure Continues (s s' : RunState) : Prop where
  start : s.run.SameStart s'.run
  keeps : ∀ id path, id < s.workspace.heap.size → s.AllocatedAt id path → s'.AllocatedAt id path
  bounded : s.Bounded → s'.Bounded

/-- The proxy stands for a container of the run where it was allocated, and it writes to the table of
the run for as long as that is open. -/
structure Legitimate (s : RunState) (p : Proxy) : Prop where
  owns : s.Owns p
  asks : p.sink.unconditional = false

variable {s s' : RunState} {p : Proxy}

theorem Legitimate.sink_eq (hp : s.Legitimate p) : p.sink = ⟨s.run.table, false⟩ := by
  rw [← hp.owns.2, ← hp.asks]

theorem continues_of_registry_eq (hstart : s.run.SameStart s'.run)
    (hreg : s'.run.registry = s.run.registry)
    (hle : s.workspace.heap.size ≤ s'.workspace.heap.size) : s.Continues s' := by
  refine ⟨hstart, fun id path _ hid => (allocatedAt_congr hreg id path).mpr hid, ?_⟩
  intro hs id path hid
  exact Nat.lt_of_lt_of_le (hs id path ((allocatedAt_congr hreg id path).mp hid)) hle

/-- Whatever a run is asked to do, and through whatever proxy, it goes on. -/
theorem continues_of_effect {isDirect : Bool} (heff : Effect s p isDirect s') : s.Continues s' := by
  have hstart := heff.sameStart
  cases heff with
  | grown hg _ => exact continues_of_registry_eq hstart rfl hg.1
  | written hg _ hacc _ =>
    refine continues_of_registry_eq hstart rfl ?_
    rw [size_written]
    exact hg.1
  | allocated c _ _ _ _ _ =>
    refine ⟨hstart, fun id path hlt hid => ?_, fun hs id path hid => ?_⟩
    · rw [allocatedAt_registered, if_neg (Nat.ne_of_lt hlt)]
      exact hid
    · rw [allocatedAt_registered] at hid
      rw [size_registered, size_written, Run.size_allocated]
      split at hid
      · exact Nat.lt_succ_of_le (Nat.le_of_eq ‹_›)
      · exact Nat.lt_succ_of_lt (hs id path hid)

theorem Continues.legitimate (hc : s.Continues s') (hs : s.Bounded) (hp : s.Legitimate p) :
    s'.Legitimate p :=
  ⟨⟨hc.keeps _ _ (hs _ _ hp.owns.1) hp.owns.1, hp.owns.2.trans hc.start.table_eq.symm⟩, hp.asks⟩

/-- What the run answers to a legitimate proxy is legitimate. -/
theorem Legitimate.answers (hp : s.Legitimate p) (htable : s'.run.table = s.run.table) {q : Proxy}
    (ha : Answers s p s' q) : s'.Legitimate q := by
  refine ⟨hp.owns.genuine.owns_of_answers htable ha, ?_⟩
  obtain ⟨_, _, _, _, rfl, _⟩ := ha
  exact hp.asks

end RunState

namespace Progress

open RunState

/-- The action is on a proxy that has been handed out. -/
def Descends (p : Progress) (a : Action) : Prop := a.target ∈ p.issued

instance (p : Progress) (a : Action) : Decidable (p.Descends a) :=
  inferInstanceAs (Decidable (a.target ∈ p.issued))

structure Rooted (p : Progress) : Prop where
  bounded : p.state.Bounded
  legitimate : ∀ q ∈ p.issued, p.state.Legitimate q

variable {p p' : Progress}

theorem Rooted.perform (hp : p.Rooted) {a : Action} (ha : p.Descends a) : (p.perform a).Rooted := by
  have heff := p.effect_perform a
  have hc := continues_of_effect heff
  refine ⟨hc.bounded hp.bounded, fun q hq => ?_⟩
  rcases mem_issued_perform hq with hq | hanswer
  · exact hc.legitimate hp.bounded (hp.legitimate q hq)
  · exact (hp.legitimate _ ha).answers heff.table_eq hanswer

/-- Descent is safe from what is done beside it. -/
theorem Rooted.events (hp : p.Rooted) (hevents : Run.Events Descends Continues p p') : p'.Rooted := by
  refine hevents.keeps (fun _ a hq ha => hq.perform ha) (fun s s' issued hq hc => ?_) hp
  exact ⟨hc.bounded hq.bounded, fun r hr => hc.legitimate hq.bounded (hq.legitimate r hr)⟩

/-- What is done through a proxy that was made up lies beside the descent, answers and all. -/
theorem event_stray (p : Progress) (a : Action) :
    Run.Event Descends Continues p ⟨(p.perform a).state, p.issued⟩ :=
  .beside (continues_of_effect (p.effect_perform a))

theorem rooted_initial (id : RunId) (inputs : List (SourceId × Tree)) (w : Workspace) :
    (Progress.initial id inputs w).Rooted := by
  have hat := Run.allocatedAt_start id inputs w
  refine ⟨fun i path hi => ?_, fun q hq => ?_⟩
  · rw [((hat i path).mp hi).1]
    exact Run.lt_size_start id inputs w
  · rw [List.mem_singleton.mp hq]
    exact ⟨⟨(hat _ _).mpr ⟨rfl, rfl⟩, rfl⟩, rfl⟩

end Progress

namespace Run

/-- A workspace with a mapping table that is not of the run. -/
def customs : Workspace := { tables := #[{}] }

/-- A proxy over the output root that names another place and delivers to the other table. -/
def forged : Proxy :=
  { (start default [] customs).run.root with location := ⟨[.key "elsewhere"]⟩, sink := ⟨0, false⟩ }

end Run

end Lineage
