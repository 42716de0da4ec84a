import Lineage.Proofs.Run.Explained

/-! The registry of a run. A proxy carries a pointer of its own, and the run keeps one for the
container of the proxy. Both are extended whenever a container is allocated or reopened, each on its
own account. In every state that a run can come to they are one pointer for every proxy that it has
handed out, the pointer leads to the container of the proxy, and no other container of the run has it.
-/

namespace Lineage

/-- The pointers of the proxies that the run has handed out are those of the registry. -/
structure Progress.Registered (p : Progress) : Prop where
  pointer : ∀ q ∈ p.issued, ∃ r, Run.outputPointer q p.state = .ok r p.state ∧
    (r == q.location) = true ∧
    p.state.workspace.heap.resolve? p.state.run.root.tree r = some q.tree
  apart : ∀ q ∈ p.issued, ∀ q' ∈ p.issued, q.backing ≠ q'.backing → ∀ r r',
    Run.outputPointer q p.state = .ok r p.state → Run.outputPointer q' p.state = .ok r' p.state →
      (r == r') = false

namespace RunState

variable {s : RunState} {p : Proxy}

/-- The registry answers for an owned proxy, with a pointer for the place of its container. -/
theorem Owns.exists_outputPointer (ho : s.Owns p) :
    ∃ r, Run.outputPointer p s = .ok r s ∧ r.tokens = p.location.tokens := by
  obtain ⟨⟨r, hr, htokens⟩, _⟩ := ho
  exact ⟨r, Run.outputPointer_of_some s hr, htokens⟩

theorem Owns.tokens_outputPointer (ho : s.Owns p) {r : Pointer}
    (hr : Run.outputPointer p s = .ok r s) : r.tokens = p.location.tokens := by
  obtain ⟨r', hr', htokens⟩ := ho.exists_outputPointer
  have hsame : r = r' := by
    rw [hr] at hr'
    simpa using hr'
  rw [hsame, htokens]

/-- The place of an owned proxy has its container. -/
theorem Placed.resolve?_of_owns (hs : s.Placed) (ho : s.Owns p) {r : Pointer}
    (hr : r.tokens = p.location.tokens) :
    s.workspace.heap.resolve? s.run.root.tree r = some p.tree := by
  have hpath := hs.follow?_eq ho.1
  rw [← hr] at hpath
  have hspelling : r.segments.map Segment.token = (r.tokens.map Segment.key).map Segment.token := by
    simp [Pointer.tokens]
  exact (s.workspace.heap.follow?_congr _ hspelling).trans hpath

end RunState

open RunState in
theorem Progress.Sound.registered {p : Progress} (hp : p.Sound) : p.Registered := by
  refine ⟨fun q hq => ?_, fun q hq q' hq' hne r r' hr hr' => ?_⟩
  · have ho := hp.owns q hq
    obtain ⟨r, hr, htokens⟩ := ho.exists_outputPointer
    exact ⟨r, hr, Pointer.beq_iff.mpr htokens, hp.state.placed.resolve?_of_owns ho htokens⟩
  · have ho := hp.owns q hq
    have ho' := hp.owns q' hq'
    rw [Bool.eq_false_iff]
    intro heq
    -- one place has one container
    have hplace : q.location.tokens = q'.location.tokens := by
      rw [← ho.tokens_outputPointer hr, ← ho'.tokens_outputPointer hr', Pointer.beq_iff.mp heq]
    have hat : p.state.AllocatedAt q.backing q'.location.tokens := hplace ▸ ho.1
    exact hne (hp.state.placed.unique _ _ _ hat ho'.1)

namespace Run

/-- Whatever a run is asked to do, and whatever it refuses, its registry and the proxies that it has
handed out agree on where their containers stand. -/
theorem registered_of_steps (id : RunId) (inputs : List (SourceId × Tree)) {w : Workspace}
    (hw : w.heap.Indexable) {p : Progress}
    (hsteps : Steps ⟨start id inputs w, [(start id inputs w).run.root]⟩ p) : p.Registered :=
  ((sound_start id inputs w hw).steps hsteps).registered

/-- Makes a container, puts the output root into it, and asks for the container again: at its own
place, under another spelling of the name, and at a place where something else stands. -/
def revisit : List Action :=
  let root := (start default [] {}).run.root
  let child := root.child (.key "7") 1
  [.allocateArray root (.key "7") .root, .place child (.index 0) .root root.tree true,
    .openArray root (.index 7) .root, .openArray child (.index 0) .root]

theorem registered_revisit :
    (revisit.foldl Progress.perform
      ⟨start default [] {}, [(start default [] {}).run.root]⟩).issued.map (·.location) =
        [⟨[.index 7]⟩, ⟨[.key "7"]⟩, .root] ∧
    (revisit.foldl Progress.perform
      ⟨start default [] {}, [(start default [] {}).run.root]⟩).Registered := by
  have hindexable : Heap.Indexable {} := fun _ _ hc => by cases hc
  refine ⟨by decide +kernel, registered_of_steps default [] (w := {}) hindexable ?_⟩
  simp only [revisit, List.foldl_cons, List.foldl_nil]
  refine .tail (.tail (.tail (.single (.act _ (.inl ?_))) (.act _ (.inl ?_)))
    (.act _ (.inl ?_))) (.act _ (.inl ?_)) <;> decide +kernel

end Run

end Lineage
