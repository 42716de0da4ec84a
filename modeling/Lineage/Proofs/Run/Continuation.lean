import Lineage.Proofs.Run.Closure
import Lineage.Proofs.Run.Renaming

/-! What comes after a refused operation. The containers that it may have left behind are referred to by
nothing, so whatever is asked of the run next is answered as if the operation had not been tried, only
that the containers that are made from then on get other identities.
-/

namespace Lineage

/-- Numbers from `n` on move by `d`. -/
def shiftFrom (n d i : Nat) : Nat := if i < n then i else i + d

theorem shiftFrom_of_lt {n d i : Nat} (hi : i < n) : shiftFrom n d i = i := if_pos hi

theorem shiftFrom_of_le {n d i : Nat} (hi : n ≤ i) : shiftFrom n d i = i + d := if_neg (Nat.not_lt.mpr hi)

theorem injective_shiftFrom (n d : Nat) : Function.Injective (shiftFrom n d) := by
  intro i j heq
  unfold shiftFrom at heq
  split at heq <;> split at heq <;> omega

namespace RunState

variable {s s' : RunState}

/-- What is left behind beside the containers of a whole run is referred to by nothing: when the next
containers are made behind it, they are the only ones with other identities. -/
theorem Whole.renames (hs : s.Whole) {heap : Heap} (hg : s.workspace.heap.Grows heap) :
    s.Renames (shiftFrom s.workspace.heap.size (heap.size - s.workspace.heap.size)) (s.withHeap heap) := by
  obtain ⟨d, hd⟩ := Nat.exists_eq_add_of_le hg.1
  have hshift : heap.size - s.workspace.heap.size = d := by rw [hd, Nat.add_sub_cancel_left]
  rw [hshift]
  refine ⟨⟨⟨hg.1, fun id => ?_, fun i => ?_⟩, rfl⟩, fun id => ?_, rfl, .refl _⟩
  · rw [heap_withHeap]
    rcases Nat.lt_or_ge id s.workspace.heap.size with hid | hid
    · rw [shiftFrom_of_lt hid, hg.2 id hid]
      cases hc : s.workspace.heap.get? id with
      | none => rfl
      | some c => exact congrArg some (c.rename_of_has (fun _ => shiftFrom_of_lt) (hs.closed id c hc)).symm
    · have hnone : s.workspace.heap.get? id = none := Array.getElem?_eq_none hid
      rw [shiftFrom_of_le hid, hnone]
      exact Array.getElem?_eq_none (Nat.le_trans (Nat.le_of_eq hd) (Nat.add_le_add_right hid d))
  · rw [heap_withHeap, shiftFrom_of_le (Nat.le_add_right _ _), hd, Nat.add_right_comm]
  · rcases Nat.lt_or_ge id s.workspace.heap.size with hid | hid
    · rw [shiftFrom_of_lt hid]
      rfl
    · have hnone : ∀ i, s.workspace.heap.size ≤ i → s.run.registry.get? i = none := fun i hi =>
        Option.eq_none_iff_forall_ne_some.mpr fun q hq => Nat.not_lt.mpr hi (hs.registered i q hq)
      rw [shiftFrom_of_le hid, hnone id hid]
      exact hnone _ (Nat.le_trans hid (Nat.le_add_right _ _))

theorem Renames.attempt {f : ContainerId → ContainerId} (hf : Function.Injective f) {as : List Action}
    {p : Progress} (hr : p.state.Renames f s') (hs : p.state.Whole)
    (has : Run.AdmitsAll Progress.Supplied p as) :
    (attempt Action.run (as.map (Action.rename f)) s').1 =
        (attempt Action.run as p.state).1.map (Except.map (Option.map (Proxy.rename f))) ∧
      (attempt Action.run as p.state).2.Renames f (attempt Action.run (as.map (Action.rename f)) s').2 := by
  induction as generalizing p s' with
  | nil => exact ⟨rfl, hr⟩
  | cons a rest ih =>
    obtain ⟨hanswer, hafter⟩ := hr.run hf hs.closed has.1
    rw [← p.state_perform_eq a] at hafter
    have hwhole : (p.perform a).state.Whole := p.state_perform_eq a ▸ hs.run has.1
    obtain ⟨hanswers, hleft⟩ := ih hafter hwhole has.2
    rw [p.state_perform_eq a] at hanswers hleft
    rw [List.map_cons, attempt_cons, attempt_cons, List.map_cons, hanswer, hanswers]
    exact ⟨rfl, hleft⟩

/-- Whatever is asked of a run in the second state, it answers as it would in the first one, and it
leaves behind what it would leave there. The containers of the first state have kept their identities,
and those that are made from then on have other ones. -/
structure Resumes (f : ContainerId → ContainerId) (s s' : RunState) : Prop where
  injective : Function.Injective f
  fixes : ∀ id < s.workspace.heap.size, f id = id
  answers : ∀ as, Run.AdmitsAll Progress.Supplied ⟨s, []⟩ as →
    (attempt Action.run (as.map (Action.rename f)) s').1 =
      (attempt Action.run as s).1.map (Except.map (Option.map (Proxy.rename f)))
  leaves : ∀ as, Run.AdmitsAll Progress.Supplied ⟨s, []⟩ as →
    (attempt Action.run as s).2.Renames f (attempt Action.run (as.map (Action.rename f)) s').2

theorem Whole.resumes (hs : s.Whole) {heap : Heap} (hg : s.workspace.heap.Grows heap) :
    s.Resumes (shiftFrom s.workspace.heap.size (heap.size - s.workspace.heap.size)) (s.withHeap heap) := by
  have hf := injective_shiftFrom s.workspace.heap.size (heap.size - s.workspace.heap.size)
  have hrest (as : List Action) (has : Run.AdmitsAll Progress.Supplied ⟨s, []⟩ as) :=
    Renames.attempt hf (p := ⟨s, []⟩) (hs.renames hg) hs has
  exact ⟨hf, fun _ => shiftFrom_of_lt, fun as has => (hrest as has).1, fun as has => (hrest as has).2⟩

end RunState

namespace Action

variable {s s' : RunState} {a : Action} {e : RunError}

/-- Whatever is refused leaves no trace, and the run goes on as if it had not been asked for. -/
theorem refused_without_trace (h : a.run s = .error e s') :
    s.Untouched s' ∧ (s.Reached → ∃ f, s.Resumes f s') := by
  obtain ⟨heap, hgrows, rfl⟩ := grows_of_refused h
  exact ⟨RunState.untouched_withHeap hgrows, fun hs => ⟨_, hs.whole.resumes hgrows⟩⟩

/-- The object that is refused a place is left behind. -/
theorem refused_without_trace_occupied :
    let s := after (Run.place (Run.start default [] {}).run.root (.key "a") .root .null false
      (Run.start default [] {}))
    ∃ e s' f, (allocateObject s.run.root (.key "a") .root).run s = .error e s' ∧
      s'.workspace.heap.size = s.workspace.heap.size + 1 ∧ s.Untouched s' ∧ s.Resumes f s' := by
  intro s
  have hs : s.Reached := by
    let placing : Action := place (Run.start default [] {}).run.root (.key "a") .root .null false
    have hsupplied : Progress.Supplied (.initial default [] {}) placing := nofun
    exact ⟨default, [], {}, _, fun _ _ hget => (by cases hget), .single (.act placing hsupplied), rfl⟩
  cases hrun : (allocateObject s.run.root (.key "a") .root).run s with
  | error e s' =>
    have hsize : (after ((allocateObject s.run.root (.key "a") .root).run s)).workspace.heap.size =
        s.workspace.heap.size + 1 := by decide +kernel
    rw [hrun] at hsize
    obtain ⟨huntouched, hresumes⟩ := refused_without_trace hrun
    obtain ⟨f, hf⟩ := hresumes hs
    exact ⟨e, s', f, rfl, hsize, huntouched, hf⟩
  | ok q s' =>
    have hfails : succeeds ((allocateObject s.run.root (.key "a") .root).run s) = false := by
      decide +kernel
    rw [hrun] at hfails
    cases hfails

end Action

end Lineage
