import Lineage.Proofs.Output.Renaming
import Lineage.Proofs.Run.Closure

/-! Runs in heaps that hold the same containers under different identities. What such runs are asked for
they answer alike, and they stay what they were to each other.
-/

namespace Lineage

variable {f : ContainerId → ContainerId}

namespace RunState

/-- The containers of the first state stand in the second one under the identities that `f` gives them,
and everything else is the same. -/
structure Renames (f : ContainerId → ContainerId) (s s' : RunState) : Prop where
  workspace : s.workspace.Renames f s'.workspace
  registry : ∀ id, s'.run.registry.get? (f id) = s.run.registry.get? id
  current : s'.run.current = s.run.current
  sameStart : s.run.SameStart s'.run

namespace Renames

variable {s s' : RunState} (hr : s.Renames f s') (hf : Function.Injective f)
include hr

omit hf in
theorem outputPointer (p : Proxy) :
    Follows (Renames f) id (Run.outputPointer p s) (Run.outputPointer (p.rename f) s') := by
  have hget := hr.registry p.backing
  cases hp : s.run.registry.get? p.backing with
  | none =>
    rw [hp] at hget
    rw [Run.outputPointer_of_none s hp, Run.outputPointer_of_none (p := p.rename f) s' hget]
    exact .error hr
  | some q =>
    rw [hp] at hget
    rw [Run.outputPointer_of_some s hp, Run.outputPointer_of_some (p := p.rename f) s' hget]
    exact .ok hr

/-- What a write does to the workspace is all that it does to the run. -/
theorem liftWrite {m m' : WriteM Unit}
    (hm : Follows (Workspace.Renames f) id (m s.workspace) (m' s'.workspace)) :
    Follows (Renames f) id (Run.liftWrite m s) (Run.liftWrite m' s') := by
  obtain ⟨houtcome, hafter⟩ := hm
  unfold Run.liftWrite
  cases hx : m s.workspace with
  | ok x w =>
    cases hy : m' s'.workspace with
    | ok x' w' =>
      rw [hx, hy] at hafter
      exact .ok ⟨hafter, hr.registry, hr.current, hr.sameStart⟩
    | error e' w' =>
      rw [hx, hy] at houtcome
      cases houtcome
  | error e w =>
    cases hy : m' s'.workspace with
    | ok x' w' =>
      rw [hx, hy] at houtcome
      cases houtcome
    | error e' w' =>
      rw [hx, hy] at houtcome hafter
      cases houtcome
      exact .error ⟨hafter, hr.registry, hr.current, hr.sameStart⟩

theorem withHeap {heap heap' : Heap} (hheap : heap.Renames f heap') :
    (s.withHeap heap).Renames f (s'.withHeap heap') :=
  ⟨⟨hheap, hr.workspace.tables⟩, hr.registry, hr.current, hr.sameStart⟩

include hf

theorem write (p : Proxy) (key : Segment) (w : TaggedWrite) :
    Follows (Renames f) id (Run.write p key w s) (Run.write (p.rename f) key (w.rename f) s') := by
  have hlook : Follows (Renames f) id ((discard (Run.outputPointer p) : RunM Unit) s)
      ((discard (Run.outputPointer (p.rename f)) : RunM Unit) s') :=
    (hr.outputPointer p).map fun _ => rfl
  refine hlook.bind fun _ t t' ht => ?_
  rw [get_bind, get_bind, ht.current]
  exact ht.liftWrite (p.put_rename ht.workspace hf key _)

theorem placeCopy {v : Tree} (hc : s.workspace.heap.Closed) (hv : s.workspace.heap.Has v) (p : Proxy)
    (key : Segment) (origin : Pointer) (recurse : Bool) :
    Follows (Renames f) id (Run.placeCopy p key origin v recurse s)
      (Run.placeCopy (p.rename f) key origin (v.rename f) recurse s') := by
  obtain ⟨hcopy, hheap⟩ := hr.workspace.heap.duplicate hf hc hv
  rw [Run.placeCopy_eq, Run.placeCopy_eq, hcopy]
  exact (hr.withHeap hheap).write hf p key _

theorem registered (id : ContainerId) (q : Pointer) :
    (s.registered id q).Renames f (s'.registered (f id) q) := by
  obtain ⟨hroot, htable, hinputs⟩ := hr.sameStart
  refine ⟨hr.workspace, fun other => ?_, hr.current, hroot, htable, hinputs⟩
  change (s'.run.registry.insert (f id) q).get? (f other) = (s.run.registry.insert id q).get? other
  rw [OrderedMap.get?_insert, OrderedMap.get?_insert]
  simp only [hf.eq_iff, hr.registry]

theorem allocate (isArray : Bool) (p : Proxy) (key : Segment) (origin : Pointer) :
    Follows (Renames f) (Proxy.rename f) (Run.allocate (.emptyOf isArray) p key origin s)
      (Run.allocate (.emptyOf isArray) (p.rename f) key origin s') := by
  unfold Run.allocate
  refine (hr.outputPointer p).bind fun q t t' ht => ?_
  have halloc := ht.workspace.heap.alloc hf (.emptyOf isArray)
  rw [Container.rename_emptyOf] at halloc
  have hid : (t'.workspace.heap.alloc (.emptyOf isArray)).1 =
      f (t.workspace.heap.alloc (.emptyOf isArray)).1 := ht.workspace.heap.size_eq.symm
  simp only [get_bind, Workspace.alloc, set_bind, hid]
  have hwrite := (ht.withHeap halloc).write hf p key
    { value := .container (t.workspace.heap.alloc (.emptyOf isArray)).1, origin := some origin }
  exact hwrite.bind fun _ u u' hu => .ok (hu.registered hf _ _)

omit hf in
theorem reopenable? (isArray : Bool) (q : Pointer) (v : Tree) :
    Run.reopenable? s' isArray q (v.rename f) = (Run.reopenable? s isArray q v).map f := by
  cases hid : v.id? with
  | none =>
    have hid' : (v.rename f).id? = none := by rw [Tree.id?_rename, hid]; rfl
    simp only [Run.reopenable?, hid, hid']
    rfl
  | some id =>
    have hid' : (v.rename f).id? = some (f id) := by rw [Tree.id?_rename, hid]; rfl
    have hget := hr.workspace.heap.get?_eq id
    have hreg := hr.registry id
    simp only [Run.reopenable?, hid, hid', bind, Option.bind_some, hget, hreg]
    cases s.workspace.heap.get? id with
    | none => rfl
    | some c =>
      cases s.run.registry.get? id with
      | none => rfl
      | some registered =>
        simp only [Option.map_some, Option.bind_some, Container.isArray_rename]
        split <;> rfl

theorem reopenOrAllocate (isArray : Bool) (p : Proxy) (key : Segment) (origin : Pointer) :
    Follows (Renames f) (Proxy.rename f) (Run.reopenOrAllocate (.emptyOf isArray) p key origin s)
      (Run.reopenOrAllocate (.emptyOf isArray) (p.rename f) key origin s') := by
  have hmember : s'.workspace.heap.member? (p.rename f).tree key =
      (s.workspace.heap.member? p.tree key).map (Tree.rename f) := hr.workspace.heap.member?_eq p.tree key
  unfold Run.reopenOrAllocate
  rw [get_bind, get_bind, hmember]
  cases s.workspace.heap.member? p.tree key with
  | none => exact hr.allocate hf isArray p key origin
  | some existing =>
    refine (hr.outputPointer p).bind fun q t t' ht => ?_
    rw [get_bind, get_bind, Function.id_def, ht.reopenable?]
    cases Run.reopenable? t (Container.emptyOf isArray).isArray (q.append key) existing with
    | none => exact .error ht
    | some id => exact .ok ht

end Renames

end RunState

/-- The action on the same containers under other identities. -/
def Action.rename (f : ContainerId → ContainerId) : Action → Action
  | write t key w => write (t.rename f) key (w.rename f)
  | place t key origin v recurse => place (t.rename f) key origin (v.rename f) recurse
  | placeCopy t key origin v recurse => placeCopy (t.rename f) key origin (v.rename f) recurse
  | allocateObject t key origin => allocateObject (t.rename f) key origin
  | allocateArray t key origin => allocateArray (t.rename f) key origin
  | openObject t key origin => openObject (t.rename f) key origin
  | openArray t key origin => openArray (t.rename f) key origin
  | put p key a => put (p.rename f) key (a.rename f)
  | push p a => push (p.rename f) (a.rename f)

/-- An action is answered alike, with proxies over the same containers. -/
theorem RunState.Renames.run {s s' : RunState} (hr : s.Renames f s') (hf : Function.Injective f)
    (hc : s.workspace.heap.Closed) {a : Action} (ha : a.Grounded s.workspace.heap) :
    Follows (RunState.Renames f) (Option.map (Proxy.rename f)) (a.run s) ((a.rename f).run s') := by
  cases a with
  | write t key w => exact (hr.write hf t key w).map fun _ => rfl
  | place t key origin v recurse => exact (hr.write hf t key _).map fun _ => rfl
  | placeCopy t key origin v recurse => exact (hr.placeCopy hf hc ha t key origin recurse).map fun _ => rfl
  | allocateObject t key origin => exact (hr.allocate hf false t key origin).map fun _ => rfl
  | allocateArray t key origin => exact (hr.allocate hf true t key origin).map fun _ => rfl
  | openObject t key origin => exact (hr.reopenOrAllocate hf false t key origin).map fun _ => rfl
  | openArray t key origin => exact (hr.reopenOrAllocate hf true t key origin).map fun _ => rfl
  | put p key x => exact (hr.liftWrite (p.put_rename hr.workspace hf key x)).map fun _ => rfl
  | push p x =>
    have hlength : s'.workspace.heap.length (p.rename f).tree = s.workspace.heap.length p.tree :=
      hr.workspace.heap.length_eq p.tree
    have hput := p.put_rename hr.workspace hf (.index (s.workspace.heap.length p.tree)) x
    have hpush : (p.rename f).push (x.rename f) s'.workspace =
        (p.rename f).put (.index (s.workspace.heap.length p.tree)) (x.rename f) s'.workspace := by
      rw [Proxy.push, get_bind, hlength]
    have hfollows : Follows (Workspace.Renames f) id (p.push x s.workspace)
        ((p.rename f).push (x.rename f) s'.workspace) := by
      rw [hpush, Proxy.push, get_bind]
      exact hput
    exact (hr.liftWrite hfollows).map fun _ => rfl

end Lineage
