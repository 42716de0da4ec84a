import Lineage.Proofs.Output.Guard
import Lineage.Proofs.Run.Events
import Lineage.Proofs.Run.Refusals
import Lineage.Proofs.Tree.Closure

/-! Runs that stay whole. A run that is asked to write only what exists never holds anything else, and what
it registers is there.
-/

namespace Lineage

/-- What the action writes exists. -/
def Action.Grounded (h : Heap) : Action → Prop
  | write _ _ w => h.Has w.value
  | place _ _ _ v _ | placeCopy _ _ _ v _ => h.Has v
  | put _ _ a | push _ a => h.Has a.value
  | allocateObject _ _ _ | allocateArray _ _ _ | openObject _ _ _ | openArray _ _ _ => True

namespace RunState

/-- No container names one that is not there, and none is registered that is not there. -/
structure Whole (s : RunState) : Prop where
  closed : s.workspace.heap.Closed
  registered : ∀ id q, s.run.registry.get? id = some q → id < s.workspace.heap.size

variable {s s' : RunState} {p : Proxy} {key : Segment} {w : TaggedWrite} {a : Action}

theorem whole_start {inputs : List (SourceId × Tree)} {w : Workspace} (hc : w.heap.Closed) (id : RunId) :
    (Run.start id inputs w).Whole where
  closed := hc.alloc rfl
  registered i q hq := by
    change (OrderedMap.empty.insert w.heap.size Pointer.root).get? i = some q at hq
    rw [OrderedMap.get?_insert] at hq
    split at hq
    · rename_i hid
      exact hid ▸ Nat.lt_of_lt_of_eq (Nat.lt_succ_self _) (Heap.size_alloc _ _).symm
    · cases hq

theorem Whole.withHeap (hs : s.Whole) {heap : Heap} (hg : s.workspace.heap.Grows heap)
    (hc : heap.Closed) : (s.withHeap heap).Whole :=
  ⟨hc, fun id q hq => Nat.lt_of_lt_of_le (hs.registered id q hq) hg.1⟩

theorem Whole.written (hs : s.Whole) {origin : Pointer} {c c' : Container}
    (hacc : Accepts s p key w origin c c') (hv : s.workspace.heap.Has w.value) :
    (s.written p key w origin c').Whole where
  closed := by
    rw [Container.eq_extend_of_add? hacc.add]
    exact hs.closed.extend hacc.backing hv
  registered id q hq := by
    rw [size_written]
    exact hs.registered id q hq

theorem Whole.register (hs : s.Whole) {id : ContainerId} (hid : id < s.workspace.heap.size)
    (q : Pointer) : (s.registered id q).Whole where
  closed := hs.closed
  registered i r hr := by
    rw [size_registered]
    change (s.run.registry.insert id q).get? i = some r at hr
    rw [OrderedMap.get?_insert] at hr
    split at hr
    · rename_i heq
      exact heq ▸ hid
    · exact hs.registered i r hr

theorem Whole.write (hs : s.Whole) (p : Proxy) (key : Segment) (hv : s.workspace.heap.Has w.value) :
    (after (Run.write p key w s)).Whole := by
  rcases Run.write_cases s p key w with ⟨e, he⟩ | ⟨_, _, _, _, _, hacc, hok⟩
  · rw [he]
    exact hs
  · rw [hok]
    exact hs.written hacc hv

theorem Whole.allocate (hs : s.Whole) {c : Container} (hempty : c.size = 0) (p : Proxy) (key : Segment)
    (origin : Pointer) : (after (Run.allocate c p key origin s)).Whole := by
  have hallocated : (Run.allocated s c).Whole :=
    hs.withHeap (Heap.grows_alloc _ c) (hs.closed.alloc hempty)
  rcases Run.allocate_cases s c p key origin with
    ⟨e, he⟩ | ⟨e, he⟩ | ⟨q, w, _, _, _, _, _, hvalue, hacc, hok⟩
  · rw [he]
    exact hs
  · rw [he]
    exact hallocated
  · have hnew : s.workspace.heap.size < (Run.allocated s c).workspace.heap.size := by
      rw [Run.size_allocated]
      exact Nat.lt_succ_self _
    have hv : (Run.allocated s c).workspace.heap.Has w.value := by
      rw [hvalue]
      rintro _ ⟨⟩
      exact hnew
    rw [hok]
    refine (hallocated.written hacc hv).register ?_ _
    rw [size_written]
    exact hnew

theorem Whole.reopenOrAllocate (hs : s.Whole) {c : Container} (hempty : c.size = 0) (p : Proxy)
    (key : Segment) (origin : Pointer) : (after (Run.reopenOrAllocate c p key origin s)).Whole := by
  rcases Run.reopenOrAllocate_cases s c p key origin with heq | ⟨e, he⟩ | ⟨_, _, _, _, _, _, hok⟩
  · rw [heq]
    exact hs.allocate hempty p key origin
  · rw [he]
    exact hs
  · rw [hok]
    exact hs

/-- A direct write keeps the run whole as well. -/
theorem Whole.put (hs : s.Whole) (p : Proxy) (key : Segment) {x : Assignment}
    (hv : s.workspace.heap.Has x.value) : (after (Run.liftWrite (p.put key x) s)).Whole := by
  rcases Run.liftWrite_put_cases s p key x with ⟨e, he⟩ | ⟨_, _, _, _, rfl, hacc, hok⟩
  · rw [he]
    exact hs
  · rw [hok]
    exact hs.written hacc hv

/-- Whatever is done with values that exist, the run stays whole. -/
theorem Whole.run (hs : s.Whole) (ha : a.Grounded s.workspace.heap) : (after (a.run s)).Whole := by
  cases a with
  | write t key w => exact (after_map _ _ s).symm ▸ hs.write t key ha
  | place t key origin v recurse => exact (after_map _ _ s).symm ▸ hs.write t key ha
  | placeCopy t key origin v recurse =>
    obtain ⟨hc, hcopy⟩ := hs.closed.duplicate ha
    have hcopied : (Run.duplicated s v).Whole := hs.withHeap (Heap.grows_duplicate _ v) hc
    have hwrite := hcopied.write t key (w := { value := _, origin := some origin, recurse }) hcopy
    exact (after_map _ _ s).symm ▸ hwrite
  | allocateObject t key origin => exact (after_map _ _ s).symm ▸ hs.allocate rfl t key origin
  | allocateArray t key origin => exact (after_map _ _ s).symm ▸ hs.allocate rfl t key origin
  | openObject t key origin => exact (after_map _ _ s).symm ▸ hs.reopenOrAllocate rfl t key origin
  | openArray t key origin => exact (after_map _ _ s).symm ▸ hs.reopenOrAllocate rfl t key origin
  | put p key x => exact (after_map _ _ s).symm ▸ hs.put p key ha
  | push p x => exact (after_map _ _ s).symm ▸ hs.put p _ ha

end RunState

namespace Progress

/-- What is written exists by then. -/
def Supplied (p : Progress) (a : Action) : Prop := a.Grounded p.state.workspace.heap

theorem state_perform_eq (p : Progress) (a : Action) : (p.perform a).state = after (a.run p.state) := by
  cases a with
  | allocateObject | allocateArray | openObject | openArray =>
    exact (state_issue _ _).trans (after_map _ _ _).symm
  | _ => exact (after_map _ _ _).symm

end Progress

namespace RunState

/-- Trees change in a way that leaves no name without its container; what is registered stays so. -/
structure Alters (s s' : RunState) : Prop where
  size_le : s.workspace.heap.size ≤ s'.workspace.heap.size
  closed : s'.workspace.heap.Closed
  registry_eq : s'.run.registry = s.run.registry

/-- The state comes about in a run that is asked to write what exists, whatever becomes of trees between
its operations. -/
def Reached (s : RunState) : Prop :=
  ∃ id inputs w p, w.heap.Closed ∧
    Run.Events Progress.Supplied Alters (.initial id inputs w) p ∧ p.state = s

theorem Whole.alters {s s' : RunState} (hs : s.Whole) (ha : s.Alters s') : s'.Whole where
  closed := ha.closed
  registered id q hq := by
    rw [ha.registry_eq] at hq
    exact Nat.lt_of_lt_of_le (hs.registered id q hq) ha.size_le

/-- A run of what exists is whole at any time. -/
theorem Reached.whole {s : RunState} (hs : s.Reached) : s.Whole := by
  obtain ⟨id, inputs, w, p, hc, hevents, rfl⟩ := hs
  refine hevents.keeps (I := fun p => p.state.Whole) (fun p a hp ha => ?_)
    (fun s s' _ hs ha => hs.alters ha) (whole_start hc id)
  rw [p.state_perform_eq]
  exact hp.run ha

end RunState

end Lineage
