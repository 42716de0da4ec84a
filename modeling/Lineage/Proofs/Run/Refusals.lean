import Lineage.Proofs.Output.Attempts
import Lineage.Proofs.Run.Steps

/-! Refused operations. Whatever a run is asked for, and through whatever proxy: if it answers with an
error, then it has made containers at most that nothing refers to. The containers that there were, all
mapping tables, the registry, and the current input are what they were.
-/

namespace Lineage

namespace Action

/-- Does the action. An allocation answers with its proxy. -/
def run : Action → RunM (Option Proxy)
  | write t key w => (fun _ => none) <$> Run.write t key w
  | place t key origin v recurse => (fun _ => none) <$> Run.place t key origin v recurse
  | placeCopy t key origin v recurse => (fun _ => none) <$> Run.placeCopy t key origin v recurse
  | allocateObject t key origin => some <$> Run.allocateObject t key origin
  | allocateArray t key origin => some <$> Run.allocateArray t key origin
  | openObject t key origin => some <$> Run.openObject t key origin
  | openArray t key origin => some <$> Run.openArray t key origin
  | put p key a => (fun _ => none) <$> Run.liftWrite (p.put key a)
  | push p a => (fun _ => none) <$> Run.liftWrite (p.push a)

end Action

variable {ε σ α β : Type}

theorem map_eq_error_iff {f : α → β} {m : EStateM ε σ α} {s s' : σ} {e : ε} :
    (f <$> m) s = .error e s' ↔ m s = .error e s' := by
  change EStateM.map f m s = _ ↔ _
  delta EStateM.map
  cases m s <;> simp

theorem after_map (f : α → β) (m : EStateM ε σ α) (s : σ) : after ((f <$> m) s) = after (m s) := by
  change after (EStateM.map f m s) = _
  delta EStateM.map
  cases m s <;> rfl

namespace RunState

/-- There may be more containers, and nothing else has changed. -/
structure Untouched (s s' : RunState) : Prop where
  containers : ∀ id < s.workspace.heap.size, s'.workspace.heap.get? id = s.workspace.heap.get? id
  tables : s'.workspace.tables = s.workspace.tables
  pointers : ∀ p, outcome (Run.outputPointer p s') = outcome (Run.outputPointer p s)
  current : s'.run.current = s.run.current

theorem untouched_withHeap {s : RunState} {heap : Heap} (hg : s.workspace.heap.Grows heap) :
    s.Untouched (s.withHeap heap) := by
  refine ⟨hg.2, rfl, fun p => ?_, rfl⟩
  cases hp : s.run.registry.get? p.backing with
  | none => rw [Run.outputPointer_of_none s hp, Run.outputPointer_of_none (s.withHeap heap) hp]; rfl
  | some q => rw [Run.outputPointer_of_some s hp, Run.outputPointer_of_some (s.withHeap heap) hp]; rfl

end RunState

namespace Run

variable {s s' : RunState} {e : RunError}

theorem write_refused {p : Proxy} {key : Segment} {w : TaggedWrite}
    (h : write p key w s = .error e s') : s' = s := by
  rcases write_cases s p key w with ⟨e', he⟩ | ⟨_, _, _, _, _, _, hok⟩
  · cases he.symm.trans h
    rfl
  · cases hok.symm.trans h

theorem allocate_refused {c : Container} {parent : Proxy} {key : Segment} {origin : Pointer}
    (h : allocate c parent key origin s = .error e s') : s' = s ∨ s' = allocated s c := by
  rcases allocate_cases s c parent key origin with
    ⟨e', he⟩ | ⟨e', he⟩ | ⟨_, _, _, _, _, _, _, _, _, hok⟩
  · cases he.symm.trans h
    exact .inl rfl
  · cases he.symm.trans h
    exact .inr rfl
  · cases hok.symm.trans h

theorem reopenOrAllocate_refused {c : Container} {parent : Proxy} {key : Segment} {origin : Pointer}
    (h : reopenOrAllocate c parent key origin s = .error e s') : s' = s ∨ s' = allocated s c := by
  rcases reopenOrAllocate_cases s c parent key origin with
    heq | ⟨e', he⟩ | ⟨_, _, _, _, _, _, hok⟩
  · exact allocate_refused (heq ▸ h)
  · cases he.symm.trans h
    exact .inl rfl
  · cases hok.symm.trans h

end Run

namespace Action

open RunState

variable {s s' : RunState} {a : Action} {e : RunError}

/-- A refused action leaves new containers at most. -/
theorem grows_of_refused (h : a.run s = .error e s') :
    ∃ heap, s.workspace.heap.Grows heap ∧ s' = s.withHeap heap := by
  have hsame (heq : s' = s) : ∃ heap, s.workspace.heap.Grows heap ∧ s' = s.withHeap heap :=
    ⟨_, .refl _, heq⟩
  have hallocated {c : Container} (heq : s' = s ∨ s' = Run.allocated s c) :
      ∃ heap, s.workspace.heap.Grows heap ∧ s' = s.withHeap heap :=
    heq.elim hsame fun heq => ⟨_, Heap.grows_alloc _ c, heq⟩
  cases a with
  | write t key w => exact hsame (Run.write_refused (map_eq_error_iff.mp h))
  | place t key origin v recurse => exact hsame (Run.write_refused (map_eq_error_iff.mp h))
  | placeCopy t key origin v recurse =>
    have hplace := map_eq_error_iff.mp h
    rw [Run.placeCopy_eq] at hplace
    exact ⟨_, Heap.grows_duplicate _ v, Run.write_refused hplace⟩
  | allocateObject t key origin => exact hallocated (Run.allocate_refused (map_eq_error_iff.mp h))
  | allocateArray t key origin => exact hallocated (Run.allocate_refused (map_eq_error_iff.mp h))
  | openObject t key origin => exact hallocated (Run.reopenOrAllocate_refused (map_eq_error_iff.mp h))
  | openArray t key origin => exact hallocated (Run.reopenOrAllocate_refused (map_eq_error_iff.mp h))
  | put p key x =>
    rcases Run.liftWrite_put_cases s p key x with ⟨e', he⟩ | ⟨_, _, _, _, _, _, hok⟩
    · cases he.symm.trans (map_eq_error_iff.mp h)
      exact hsame rfl
    · cases hok.symm.trans (map_eq_error_iff.mp h)
  | push p x =>
    have hput : Run.liftWrite (p.put (.index (s.workspace.heap.length p.tree)) x) s = .error e s' :=
      map_eq_error_iff.mp h
    rcases Run.liftWrite_put_cases s p _ x with ⟨e', he⟩ | ⟨_, _, _, _, _, _, hok⟩
    · cases he.symm.trans hput
      exact hsame rfl
    · cases hok.symm.trans hput

end Action

end Lineage
