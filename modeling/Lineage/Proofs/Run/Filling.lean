import Lineage.Proofs.Output.Leaves
import Lineage.Proofs.Run.Jobs
import Lineage.Proofs.Run.Operations
import Lineage.Proofs.Traversal.Copies
import Lineage.Proofs.Traversal.Entering
import Lineage.Run.NodeTransform

/-! Filling a container of the output. While a run copies the members of one container into another, it
writes to nothing but that other container and to new ones, which come last in the heap, and it records
one mapping for each node, in the order of the walk. -/

namespace Lineage

/-- The mapping of a copied node. -/
def CopiedNode.mapping (source : SourceId) (n : CopiedNode) : Mapping :=
  { generated := n.generated, origin := n.origin, source }

variable {σ τ : Type}

namespace HookState

/-- The state when a traversal has entered other containers. -/
def entering (s : HookState σ τ) (visit : TraversalId) (e : Entrances) : HookState σ τ :=
  { s with workspace := { s.workspace with
      traversals := s.workspace.traversals.setIfInBounds visit e } }

/-- The state after an operation of the run. -/
def withRun (s : HookState σ τ) (r : RunState) : HookState σ τ :=
  { s with workspace := r.workspace, run := r.run }

end HookState

theorem Hook.forEntries_cons {s : HookState σ τ} {visit : TraversalId} {e : Entrances}
    (he : s.workspace.traversals[visit]? = some e) (base : Pointer) (f : Node → Hook σ τ Unit)
    (x : Segment × Tree) (rest : List (Segment × Tree)) :
    Hook.forEntries visit base f (x :: rest) s =
      (f (e.yield base x).1 >>= fun _ => Hook.forEntries visit base f rest)
        (s.entering visit (e.yield base x).2) := by
  have hget : (s.workspace.traversals[visit]?).getD .empty = e := by rw [he, Option.getD_some]
  have hyield : (Hook.onWorkspace (·.traverse visit (·.yield base x)) : Hook σ τ Node) s =
      .ok (e.yield base x).1 (s.entering visit (e.yield base x).2) := by
    rw [← hget]
    rfl
  exact bind_of_ok hyield

/-- The run is about to copy entries of a container of `h` into the container `c` behind the target. The
walk stands at `spot`, has come as far as `pass`, and has entered what `e` says. -/
structure Filling (h : Heap) (source : SourceId) (visit : TraversalId) (target : Proxy) (spot : Spot)
    (pass : Pass) (c : Container) (e : Entrances) (s : HookState σ τ) : Prop where
  grows : h.Grows s.workspace.heap
  size : s.workspace.heap.size = pass.fresh
  current : s.run.current = some source
  isOpen : ∃ ms, s.workspace.table? s.run.table = some ⟨ms, false⟩
  content : s.workspace.heap.get? target.backing = some c
  fresh : h.size ≤ target.backing
  registered : s.run.registry.get? target.backing = some spot.copy
  location : target.location = spot.copy
  sink : target.sink.table = s.run.table
  entered : s.workspace.traversals[visit]? = some e
  tracks : e.Tracks pass.yielded

/-- Between two states the run has copied `out` into the container `c` behind the target. -/
structure Filled (source : SourceId) (target : Proxy) (c : Container) (out : Pruned)
    (s s' : HookState σ τ) : Prop where
  heap : s'.workspace.heap =
    (s.workspace.heap.set target.backing (c.extend out.members)).append out.containers
  table : s'.workspace.table? s.run.table = (s.workspace.table? s.run.table).map fun t =>
    { t with entries := t.entries ++ out.nodes.map (CopiedNode.mapping source) }
  run : s'.run = { s.run with registry := s'.run.registry }
  registry : ∀ id < s.workspace.heap.size, s'.run.registry.get? id = s.run.registry.get? id

/-- What is copied first and what is copied after it. -/
def Pruned.append (out after : Pruned) : Pruned where
  members := out.members ++ after.members
  nodes := out.nodes ++ after.nodes
  containers := out.containers ++ after.containers

/-- A container below which nothing is copied. -/
theorem Pruned.container_nil (spot : Spot) (key : Segment) (id fresh : ContainerId) (isArray : Bool)
    (after : Pruned) : Pruned.container spot key id fresh isArray {} after =
      Pruned.append ⟨[(spot.key key, .container fresh)],
        [spot.node key (.container id) (.container fresh)], [.emptyOf isArray]⟩ after := by
  simp [Pruned.container, Pruned.append]

namespace Filled

variable {source : SourceId} {target child : Proxy} {c d : Container} {out after below : Pruned}
  {m : Segment × Tree} {n : CopiedNode} {s s' s'' : HookState σ τ}

theorem table_eq (hf : Filled source target c out s s') : s'.run.table = s.run.table := by
  rw [hf.run]

theorem size_eq (hf : Filled source target c out s s') :
    s'.workspace.heap.size = s.workspace.heap.size + out.containers.length := by
  rw [hf.heap]
  simp

/-- A state in which only other state than that of the run has changed. -/
theorem of_runState (hs : s'.runState = s.runState)
    (hc : s.workspace.heap.get? target.backing = some c) : Filled source target c {} s s' := by
  have hworkspace : s'.workspace = s.workspace := congrArg RunState.workspace hs
  have hrun : s'.run = s.run := congrArg RunState.run hs
  refine ⟨?_, ?_, ?_, fun _ _ => by rw [hrun]⟩
  · rw [hworkspace, Container.extend_nil, Heap.append_nil, Heap.set_eq_self hc]
  · rw [hworkspace]
    cases s.workspace.table? s.run.table <;> simp
  · rw [hrun]

theorem congr (hf : Filled source target c out s' s'') (hs : s'.runState = s.runState) :
    Filled source target c out s s'' := by
  have hworkspace : s'.workspace = s.workspace := congrArg RunState.workspace hs
  have hrun : s'.run = s.run := congrArg RunState.run hs
  refine ⟨?_, ?_, ?_, ?_⟩
  · exact hworkspace ▸ hf.heap
  · exact hworkspace ▸ hrun ▸ hf.table
  · exact hrun ▸ hf.run
  · exact hworkspace ▸ hrun ▸ hf.registry

theorem trans (h₁ : Filled source target c out s s')
    (h₂ : Filled source target (c.extend out.members) after s' s'')
    (hlt : target.backing < s.workspace.heap.size) :
    Filled source target c (out.append after) s s'' := by
  refine ⟨?_, ?_, ?_, fun id hid => ?_⟩
  · rw [h₂.heap, h₁.heap, Heap.set_append _ _ (by simpa using hlt), Heap.set_set,
      Heap.append_append, ← Container.extend_append]
    rfl
  · have htable := h₂.table
    rw [h₁.table_eq] at htable
    rw [htable, h₁.table]
    simp [Pruned.append, Function.comp_def]
  · rw [h₂.run, h₁.run]
  · have hid' : id < s'.workspace.heap.size := by
      rw [h₁.size_eq]
      exact Nat.lt_of_lt_of_le hid (Nat.le_add_right _ _)
    rw [h₂.registry id hid', h₁.registry id hid]

/-- What is filled into a new container belongs to that container. -/
theorem nested (h₁ : Filled source target c ⟨[m], [n], [d]⟩ s s')
    (h₂ : Filled source child d below s' s'') (hchild : child.backing = s.workspace.heap.size) :
    Filled source target c
      ⟨[m], n :: below.nodes, d.extend below.members :: below.containers⟩ s s'' := by
  refine ⟨?_, ?_, ?_, fun id hid => ?_⟩
  · have hsize : child.backing = (s.workspace.heap.set target.backing (c.extend [m])).size := by
      rw [hchild, Heap.size_set]
    rw [h₂.heap, h₁.heap, hsize, Heap.set_append_cons, Heap.append_append]
    rfl
  · have htable := h₂.table
    rw [h₁.table_eq] at htable
    rw [htable, h₁.table]
    simp [Function.comp_def]
  · rw [h₂.run, h₁.run]
  · have hid' : id < s'.workspace.heap.size := by
      rw [h₁.size_eq]
      exact Nat.lt_of_lt_of_le hid (Nat.le_add_right _ _)
    rw [h₂.registry id hid', h₁.registry id hid]

end Filled

namespace Filling

variable {h : Heap} {source : SourceId} {visit : TraversalId} {target : Proxy} {spot spot' : Spot}
  {pass pass' : Pass} {c : Container} {e e' : Entrances} {out : Pruned} {s s' : HookState σ τ}

theorem lt_size (hs : Filling h source visit target spot pass c e s) :
    target.backing < s.workspace.heap.size := Heap.lt_size_of_get? hs.content

/-- A traversal moves on beside the run. -/
theorem entering (hs : Filling h source visit target spot pass c e s) {ids : List ContainerId}
    (ht : e'.Tracks ids) :
    Filling h source visit target spot { pass with yielded := ids } c e' (s.entering visit e') := by
  have hvisit : visit < s.workspace.traversals.size := (Array.getElem?_eq_some_iff.mp hs.entered).1
  refine ⟨hs.grows, hs.size, hs.current, hs.isOpen, hs.content, hs.fresh, hs.registered, hs.location,
    hs.sink, ?_, ht⟩
  simp [HookState.entering, hvisit]

/-- After something was copied the run may go on from the next spot. -/
theorem filled (hs : Filling h source visit target spot pass c e s)
    (hf : Filled source target c out s s') (hcopy : spot'.copy = spot.copy)
    (hfresh : pass'.fresh = pass.fresh + out.containers.length)
    (he : s'.workspace.traversals[visit]? = some e') (ht : e'.Tracks pass'.yielded) :
    Filling h source visit target spot' pass' (c.extend out.members) e' s' := by
  have hlt := hs.lt_size
  have htable := hf.table_eq
  refine ⟨?_, ?_, ?_, ?_, ?_, hs.fresh, ?_, ?_, ?_, he, ht⟩
  · rw [hf.heap]
    refine .trans ⟨?_, fun id hid => ?_⟩ (Heap.grows_append _ _)
    · rw [Heap.size_set]
      exact hs.grows.1
    · have hne : target.backing ≠ id := Nat.ne_of_gt (Nat.lt_of_lt_of_le hid hs.fresh)
      rw [Heap.get?_set, if_neg fun hh => hne hh.1]
      exact hs.grows.2 id hid
  · rw [hf.size_eq, hs.size, hfresh]
  · rw [hf.run]
    exact hs.current
  · obtain ⟨ms, hms⟩ := hs.isOpen
    exact ⟨_, by rw [htable, hf.table, hms]; rfl⟩
  · rw [hf.heap, Heap.get?_append, Heap.size_set, if_pos hlt, Heap.get?_set, if_pos ⟨rfl, hlt⟩]
  · rw [hf.registry _ hlt, hcopy]
    exact hs.registered
  · rw [hcopy]
    exact hs.location
  · rw [htable]
    exact hs.sink

variable {entries rest : List (Segment × Tree)} {key : Segment} {value : Tree}

theorem congr (hs : Filling h source visit target spot pass c e s)
    (hsame : s'.runState = s.runState) : Filling h source visit target spot pass c e s' := by
  have hworkspace : s'.workspace = s.workspace := congrArg RunState.workspace hsame
  have hrun : s'.run = s.run := congrArg RunState.run hsame
  refine ⟨?_, ?_, ?_, ?_, ?_, hs.fresh, ?_, hs.location, ?_, ?_, hs.tracks⟩
  · exact hworkspace ▸ hs.grows
  · exact hworkspace ▸ hs.size
  · exact hrun ▸ hs.current
  · exact hworkspace ▸ hrun ▸ hs.isOpen
  · exact hworkspace ▸ hs.content
  · exact hrun ▸ hs.registered
  · exact hrun ▸ hs.sink
  · exact hworkspace ▸ hs.entered

/-- The key under which a node is copied is that of the walk. -/
theorem copyKey_eq (hs : Filling h source visit target spot pass c e s)
    (hroom : c.Room spot.number entries) (n : Node) :
    NodeTransform.copyKey s.workspace.heap target n = spot.key n.key := by
  have hcontainer : s.workspace.heap.container? target.tree = some c := hs.content
  have harray := hroom.isArray_eq
  unfold NodeTransform.copyKey Heap.isArray Heap.length Spot.key Container.keyFor
  rw [hcontainer]
  cases hnumber : spot.number with
  | none => simp [harray, hnumber]
  | some k =>
    rw [hnumber] at hroom
    simp [harray, hnumber, hroom.size_eq]

/-- A write that stays within the room of the container is accepted. -/
theorem accepts (hs : Filling h source visit target spot pass c e s)
    (hroom : c.Room spot.number ((key, value) :: rest)) {heap : Heap}
    (hheap : s.workspace.heap.Grows heap) (v : Tree) (origin : Pointer) :
    Accepts (s.runState.withHeap heap) target (spot.key key)
      (Run.attributed s.runState { value := v, origin := some origin }) origin c
      (c.extend [(spot.key key, v)]) := by
  obtain ⟨ms, hms⟩ := hs.isOpen
  have htable : s.workspace.table? target.sink.table = some ⟨ms, false⟩ := by
    rw [hs.sink]
    exact hms
  exact ⟨rfl, Workspace.accepts_of_isOpen htable, hheap.get? hs.content, hroom.add? v⟩

/-- The mapping that a copied node gets. -/
theorem topMapping_eq (hs : Filling h source visit target spot pass c e s) (key : Segment)
    (value v : Tree) :
    target.topMapping (spot.key key)
      (Run.attributed s.runState { value := v, origin := some (spot.source.append key) })
      (spot.source.append key) = (spot.node key value v).mapping source := by
  have hcurrent : s.runState.run.current = some source := hs.current
  simp [Proxy.topMapping, Run.attributed, hcurrent, hs.location, CopiedNode.mapping, Spot.node]

/-- A copied node is written to its place, and new containers may have been made for it. -/
theorem filled_written (hs : Filling h source visit target spot pass c e s) (key : Segment)
    (value v : Tree) (cs : List Container) {r : RunState}
    (hworkspace : r.workspace = ((s.runState.withHeap (s.workspace.heap.append cs)).written target
      (spot.key key)
      (Run.attributed s.runState { value := v, origin := some (spot.source.append key) })
      (spot.source.append key) (c.extend [(spot.key key, v)])).workspace)
    (hrun : r.run = { s.run with registry := r.run.registry })
    (hregistry : ∀ id < s.workspace.heap.size, r.run.registry.get? id = s.run.registry.get? id) :
    Filled source target c ⟨[(spot.key key, v)], [spot.node key value v], cs⟩ s (s.withRun r) := by
  refine ⟨?_, ?_, hrun, hregistry⟩
  · have hset := Heap.set_append s.workspace.heap cs hs.lt_size (c.extend [(spot.key key, v)])
    rw [← hset]
    exact congrArg Workspace.heap hworkspace
  · have hmappings := target.mappingsOf_of_not_recurse (spot.key key)
      (Run.attributed s.runState { value := v, origin := some (spot.source.append key) })
      (spot.source.append key)
      ((s.workspace.heap.append cs).set target.backing (c.extend [(spot.key key, v)])) rfl
    rw [hs.topMapping_eq key value v] at hmappings
    have htable := congrArg (Workspace.table? · s.run.table) hworkspace
    refine htable.trans ?_
    have hsink : target.sink.table = s.run.table := hs.sink
    simp only [RunState.written, Proxy.written, hsink, RunState.withHeap, HookState.runState]
    rw [Workspace.table?_recordAll]
    simp only [HookState.runState] at hmappings
    simp only [hmappings]
    rfl

/-- A scalar is written under the key of the walk. -/
theorem place (hs : Filling h source visit target spot pass c e s)
    (hroom : c.Room spot.number ((key, value) :: rest)) :
    ∃ r, Run.place target (spot.key key) (spot.source.append key) value false s.runState =
        .ok () r ∧
      Filled source target c ⟨[(spot.key key, value)], [spot.node key value value], []⟩ s
        (s.withRun r) ∧
      r.workspace.traversals = s.workspace.traversals := by
  have hacc := hs.accepts hroom (.refl _) value (spot.source.append key)
  have hwrite := Run.write_of_accepts s.runState hs.registered hacc
  refine ⟨_, hwrite, hs.filled_written key value value [] ?_ rfl fun _ _ => rfl, rfl⟩
  rw [Heap.append_nil]
  rfl

/-- A container is made, and written under the key of the walk. -/
theorem allocate (hs : Filling h source visit target spot pass c e s)
    (hroom : c.Room spot.number ((key, value) :: rest)) (isArray : Bool) :
    ∃ r, Run.allocate (.emptyOf isArray) target (spot.key key) (spot.source.append key) s.runState =
        .ok (target.child (spot.key key) pass.fresh) r ∧
      Filled source target c ⟨[(spot.key key, .container pass.fresh)],
        [spot.node key value (.container pass.fresh)], [.emptyOf isArray]⟩ s (s.withRun r) ∧
      r.workspace.traversals = s.workspace.traversals ∧
      r.run.registry.get? pass.fresh = some (spot.copy.append (spot.key key)) := by
  have hsize : s.runState.workspace.heap.size = pass.fresh := hs.size
  have hacc := hs.accepts hroom (Heap.grows_alloc _ (.emptyOf isArray)) (.container pass.fresh)
    (spot.source.append key)
  rw [← hsize] at hacc
  have hallocate := Run.allocate_of_accepts s.runState hs.registered hacc
  rw [hsize] at hallocate
  refine ⟨_, hallocate, hs.filled_written key value _ [.emptyOf isArray] ?_ rfl ?_, rfl, ?_⟩
  · rw [← Heap.alloc_eq_append]
    rfl
  · intro id hid
    have hne : pass.fresh ≠ id := hs.size ▸ Nat.ne_of_gt hid
    exact (OrderedMap.get?_insert _ _ _ _).trans (if_neg hne)
  · exact (OrderedMap.get?_insert _ _ _ _).trans (if_pos rfl)

/-- A new container can be filled in turn. -/
theorem inside (hs : Filling h source visit target spot pass c e s) {isArray : Bool} {r : RunState}
    (hf : Filled source target c ⟨[(spot.key key, .container pass.fresh)],
      [spot.node key value (.container pass.fresh)], [.emptyOf isArray]⟩ s (s.withRun r))
    (htraversals : r.workspace.traversals = s.workspace.traversals)
    (hregistry : r.run.registry.get? pass.fresh = some (spot.copy.append (spot.key key))) :
    Filling h source visit (target.child (spot.key key) pass.fresh) (spot.inside key isArray)
      { pass with fresh := pass.fresh + 1 } (.emptyOf isArray) e (s.withRun r) := by
  have hentered : (s.withRun r).workspace.traversals[visit]? = some e := htraversals ▸ hs.entered
  have hs' : Filling h source visit target spot { pass with fresh := pass.fresh + 1 } _ e
      (s.withRun r) := hs.filled hf rfl rfl hentered hs.tracks
  refine ⟨hs'.grows, hs'.size, hs'.current, hs'.isOpen, ?_, ?_, hregistry, ?_, hs'.sink, hentered,
    hs.tracks⟩
  · rw [hf.heap, Heap.get?_append, Heap.size_set]
    simp [Proxy.child, hs.size]
  · show h.size ≤ pass.fresh
    rw [← hs.size]
    exact hs.grows.1
  · show target.location.append (spot.key key) = spot.copy.append (spot.key key)
    rw [hs.location]

end Filling

end Lineage
