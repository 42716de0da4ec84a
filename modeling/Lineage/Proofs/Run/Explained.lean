import Lineage.Proofs.Provenance.Ancestors
import Lineage.Proofs.Run.Soundness

/-! Finished runs explain their output. Whatever a disciplined transform does on whatever inputs,
its mappings speak of distinct places that the output has, and exactly one position is behind every
place of the output but the root. -/

namespace Lineage

/-- The mappings explain the tree: no place is mapped twice, every mapped place is there, and
everything but the root has one position behind it. -/
structure RunOutput.Explained (out : RunOutput) (h : Heap) : Prop where
  distinct : out.mappings.Pairwise fun m n => (m.generated == n.generated) = false
  resolves : ∀ m ∈ out.mappings, (h.resolve? out.tree m.generated).isSome
  unique : ∀ p : Pointer, p.isRoot = false → (h.resolve? out.tree p).isSome →
    ∃ q, positionsBehind out.mappings p = [q]

namespace RunState

variable {s : RunState}

/-- Below the root of a sound run there is a mapping at or above every place. -/
theorem Sound.exists_mapped_above (hs : s.Sound) {p : Pointer} (hp : p.isRoot = false)
    (hr : (s.workspace.heap.resolve? s.run.root.tree p).isSome) :
    ∃ m ∈ s.mappings, m.generated.tokens <+: p.tokens := by
  obtain ⟨key, hkey, hpre⟩ := Heap.exists_member?_of_resolve? hp hr
  have hmember : (s.memberAt s.run.root.backing key.token).isSome := by
    rw [memberAt_token]
    exact hkey
  obtain ⟨m, hm, htok⟩ := hs.accounted.covers _ _ _ hs.placed.root hmember
  refine ⟨m, hm, ?_⟩
  rw [htok]
  exact hpre

theorem Sound.explained (hs : s.Sound) :
    RunOutput.Explained ⟨s.run.root.tree, s.mappings⟩ s.workspace.heap := by
  refine ⟨hs.accounted.distinct.imp fun hne => ?_, hs.accounted.resolves, fun p hp hr => ?_⟩
  · rw [Bool.eq_false_iff]
    exact fun heq => hne (Pointer.beq_iff.mp heq)
  · obtain ⟨m, hm, hpre⟩ := hs.exists_mapped_above hp hr
    exact exists_positionsBehind_eq hs.accounted.distinct hm hpre

end RunState

namespace Run

variable (id : RunId) (inputs : List (SourceId × Tree)) (w : Workspace)

theorem allocatedAt_start (i : ContainerId) (path : List String) :
    (start id inputs w).AllocatedAt i path ↔ i = w.heap.size ∧ path = [] := by
  have hget : (start id inputs w).run.registry.get? i =
      if w.heap.size = i then some .root else none := OrderedMap.get?_insert _ _ _ _
  rw [RunState.AllocatedAt, hget]
  constructor
  · rintro ⟨p, hp, rfl⟩
    split at hp
    · cases hp
      exact ⟨Eq.symm ‹_›, rfl⟩
    · cases hp
  · rintro ⟨rfl, rfl⟩
    exact ⟨.root, if_pos rfl, rfl⟩

theorem mappings_start : (start id inputs w).mappings = [] := by
  simp [RunState.mappings, start, Workspace.newTable, Proxy.fresh, Workspace.alloc,
    Workspace.tableEntries, Workspace.table?]

theorem memberAt_start (name : String) :
    (start id inputs w).memberAt w.heap.size name = none := by
  have hroot : (start id inputs w).workspace.heap.get? w.heap.size = some .emptyObject :=
    (Heap.get?_alloc w.heap .emptyObject _).trans (if_pos rfl)
  exact (Heap.member?_container hroot (.key name)).trans
    (Container.member?_of_size_eq_zero rfl _)

theorem lt_size_start : w.heap.size < (start id inputs w).workspace.heap.size :=
  Nat.lt_of_lt_of_eq (Nat.lt_succ_self _) (Heap.size_alloc _ _).symm

/-- A run starts with an empty output, of which it owns the root. -/
theorem sound_start (hw : w.heap.Indexable) :
    Progress.Sound ⟨start id inputs w, [(start id inputs w).run.root]⟩ := by
  have hat := allocatedAt_start id inputs w
  refine ⟨⟨⟨?_, ?_, ?_, ?_, ?_⟩, ⟨?_, ?_, ?_, ?_⟩⟩, ?_⟩
  · exact hw.alloc (Container.indexable_of_size_eq_zero rfl)
  · exact (hat _ _).mpr ⟨rfl, rfl⟩
  · intro i path hi
    obtain ⟨rfl, _⟩ := (hat i path).mp hi
    exact lt_size_start id inputs w
  · intro i j path hi hj
    exact ((hat i path).mp hi).1.trans ((hat j path).mp hj).1.symm
  · intro i path name hi
    exact absurd ((hat i _).mp hi).2 (by simp)
  · intro j path name hj hsome
    obtain ⟨rfl, _⟩ := (hat j path).mp hj
    rw [memberAt_start] at hsome
    cases hsome
  · intro m hm
    rw [mappings_start] at hm
    cases hm
  · intro m hm
    rw [mappings_start] at hm
    cases hm
  · rw [mappings_start]
    exact .nil
  · intro q hq
    rw [List.mem_singleton.mp hq]
    exact ⟨(hat _ _).mpr ⟨rfl, rfl⟩, rfl⟩

end Run

namespace Job

variable {σ τ : Type}

/-- The output of a disciplined transform is explained, whatever its inputs share. Items are counted
by words of 64 bits, so that no array of a heap is longer. -/
theorem explained_of_result {t : Transform σ τ} {keeps : HookState σ τ → List Proxy → Prop}
    (ht : t.Disciplined keeps) {id : RunId} {inputs : List (SourceId × Tree)} {own : τ} {ambient : σ}
    {w : Workspace} (hw : w.heap.Indexable)
    (hk : keeps (launch id inputs own ambient w).hookState
      [(launch id inputs own ambient w).job.run.root])
    {out : RunOutput} {s : JobState σ τ}
    (hr : result t (launch id inputs own ambient w) = .ok out s) :
    out.Explained s.workspace.heap := by
  obtain ⟨issued, hsteps, _⟩ := stepsTo_hooks ht hk
  have hsound := (Run.sound_start id inputs w hw).steps hsteps
  rcases result_cases (t := t) (s := launch id inputs own ambient w) rfl with
    ⟨e, h, _, herr⟩ | ⟨h, hh, hok⟩
  · rw [herr] at hr
    cases hr
  · rw [hok] at hr
    rw [hh] at hsound
    cases hr
    exact hsound.state.explained

/-- Writes the output into itself, and swallows the refusal to do so twice. -/
def ouroboros : Transform Unit Unit where
  prepare := do
    let root := (← get).run.root
    let ring ← Hook.liftRun (Run.allocateArray root (.key "ring") .root)
    Hook.liftRun (Run.place ring (.index 0) .root root.tree true)
    tryCatch (Hook.liftRun (Run.place ring (.index 0) .root root.tree true)) fun _ => pure ()
  process _ _ _ := pure ()

theorem ouroboros_disciplined : ouroboros.Disciplined fun h issued => h.run.root ∈ issued := by
  refine ⟨fun h issued hk => ?_, fun h issued _ _ hk => Hook.stepsTo_pure hk,
    fun h issued hk => Hook.stepsTo_pure hk, fun _ _ _ hk => hk, fun _ _ _ hk => hk⟩
  refine Hook.StepsTo.root_mem (P := fun _ _ _ => True) (Hook.stepsTo_get ?_) hk
  refine (Hook.stepsTo_issue (.allocateArray h.run.root _ _) rfl (.inl hk)).bind ?_
  rintro ring h₁ _ rfl
  refine (Hook.stepsTo_act (.place ring _ _ _ _) rfl (.inl List.mem_cons_self)).bind ?_
  rintro _ h₂ _ rfl
  exact (Hook.stepsTo_act (.place ring _ _ _ _) rfl (.inl List.mem_cons_self)).swallow ()

theorem ouroboros_explained : ∃ out s,
    result ouroboros (launch default [] () () {}) = .ok out s ∧ out.mappings.length = 3 ∧
      out.Explained s.workspace.heap := by
  have hlength : (match result ouroboros (launch default [] () () {}) with
      | .ok out _ => out.mappings.length
      | .error _ _ => 0) = 3 := by decide +kernel
  have hindexable : Heap.Indexable {} := fun _ _ hc => by cases hc
  cases hr : result ouroboros (launch default [] () () {}) with
  | error e s =>
    rw [hr] at hlength
    cases hlength
  | ok out s =>
    rw [hr] at hlength
    refine ⟨out, s, rfl, hlength, explained_of_result ouroboros_disciplined hindexable ?_ hr⟩
    exact List.mem_singleton.mpr rfl

end Job

end Lineage
