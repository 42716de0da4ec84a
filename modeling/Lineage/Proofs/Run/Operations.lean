import Lineage.Proofs.Output.Put
import Lineage.Proofs.Tree.Copies
import Lineage.Run.Basic

/-! What the operations of a run do to its state. Each is refused, or it writes one member through
the proxy it was given; an allocation makes its container first and registers it last, so a refused
one leaves behind a container that nothing refers to. -/

namespace Lineage

namespace RunState

/-- The state with another heap. -/
def withHeap (s : RunState) (heap : Heap) : RunState :=
  { s with workspace := { s.workspace with heap } }

@[simp] theorem heap_withHeap (s : RunState) (heap : Heap) :
    (s.withHeap heap).workspace.heap = heap := rfl

/-- The state after an accepted write. -/
def written (s : RunState) (p : Proxy) (key : Segment) (write : TaggedWrite) (origin : Pointer)
    (c : Container) : RunState :=
  { s with workspace := p.written key write origin c s.workspace }

/-- The state in which a container is registered. -/
def registered (s : RunState) (id : ContainerId) (p : Pointer) : RunState :=
  { s with run := { s.run with registry := s.run.registry.insert id p } }

@[simp] theorem size_written (s : RunState) (p : Proxy) (key : Segment) (write : TaggedWrite)
    (origin : Pointer) (c : Container) :
    (s.written p key write origin c).workspace.heap.size = s.workspace.heap.size :=
  Heap.size_set _ _ _

@[simp] theorem size_registered (s : RunState) (id : ContainerId) (p : Pointer) :
    (s.registered id p).workspace.heap.size = s.workspace.heap.size := rfl

end RunState

@[simp] theorem Proxy.tokens_location_child (p : Proxy) (key : Segment) (id : ContainerId) :
    (p.child key id).location.tokens = p.location.tokens ++ [key.token] :=
  Pointer.tokens_append _ _

/-- A write through `p` that goes in: it names its origin, the sink takes it, and the container has
room for it under the key. -/
structure Accepts (s : RunState) (p : Proxy) (key : Segment) (write : TaggedWrite)
    (origin : Pointer) (c c' : Container) : Prop where
  origin_eq : write.origin = some origin
  accepts : s.workspace.accepts p.sink = true
  backing : s.workspace.heap.get? p.backing = some c
  add : c.add? key write.value = some c'

namespace RunState

variable {s : RunState} {p : Proxy} {key : Segment} {write : TaggedWrite} {origin : Pointer}
  {c c' : Container}

/-- An accepted write delivers its mappings to the table of the proxy. -/
theorem tableEntries_written (hacc : Accepts s p key write origin c c') :
    (s.written p key write origin c').workspace.tableEntries p.sink.table =
      s.workspace.tableEntries p.sink.table ++
        p.mappingsOf key write origin (s.written p key write origin c').workspace.heap := by
  obtain ⟨t, ht⟩ := Workspace.exists_table_of_accepts hacc.accepts
  exact Workspace.tableEntries_recordAll
    (w := { s.workspace with heap := s.workspace.heap.set p.backing c' }) ht _

theorem table?_written_of_ne {id : TableId} (hne : id ≠ p.sink.table) :
    (s.written p key write origin c').workspace.table? id = s.workspace.table? id :=
  Workspace.table?_recordAll_of_ne hne.symm _ _

end RunState

namespace Run

variable (s : RunState)

theorem outputPointer_of_some {p : Proxy} {q : Pointer}
    (h : s.run.registry.get? p.backing = some q) : outputPointer p s = .ok q s := by
  unfold outputPointer
  rw [get_bind]
  simp only [h]
  rfl

theorem outputPointer_of_none {p : Proxy} (h : s.run.registry.get? p.backing = none) :
    outputPointer p s = .error (.unknownProxy p.location) s := by
  unfold outputPointer
  rw [get_bind]
  simp only [h]
  rfl

/-- A direct write is refused and changes nothing, or it is accepted. -/
theorem liftWrite_put_cases (p : Proxy) (key : Segment) (a : Assignment) :
    (∃ e, liftWrite (p.put key a) s = .error e s) ∨
    ∃ write origin c c', a = .tagged write ∧ Accepts s p key write origin c c' ∧
      liftWrite (p.put key a) s = .ok () (s.written p key write origin c') := by
  rcases p.put_cases key a s.workspace with ⟨e, he⟩ | ⟨write, origin, c, c', ha, ho, hw, hc, hadd, hput⟩
  · exact .inl ⟨.write e, by simp only [liftWrite, he]⟩
  · exact .inr ⟨write, origin, c, c', ha, ⟨ho, hw, hc, hadd⟩, by simp only [liftWrite, hput]; rfl⟩

/-- The write that a run makes of one that names no source. -/
def attributed (w : TaggedWrite) : TaggedWrite := { w with source := w.source.or s.run.current }

theorem write_of_none {target : Proxy} (h : s.run.registry.get? target.backing = none)
    (key : Segment) (w : TaggedWrite) :
    write target key w s = .error (.unknownProxy target.location) s :=
  bind_of_error (bind_of_error (outputPointer_of_none s h))

theorem write_cases (target : Proxy) (key : Segment) (w : TaggedWrite) :
    (∃ e, write target key w s = .error e s) ∨
    ∃ q origin c c', s.run.registry.get? target.backing = some q ∧
      Accepts s target key (attributed s w) origin c c' ∧
      write target key w s = .ok () (s.written target key (attributed s w) origin c') := by
  cases hq : s.run.registry.get? target.backing with
  | none => exact .inl ⟨_, write_of_none s hq key w⟩
  | some q =>
    have hlook : (discard (outputPointer target) : RunM Unit) s = .ok () s :=
      (bind_of_ok (outputPointer_of_some s hq)).trans rfl
    unfold write
    rw [bind_of_ok hlook, get_bind]
    rcases liftWrite_put_cases s target key (.tagged (attributed s w)) with
      ⟨e, he⟩ | ⟨write, origin, c, c', ha, hacc, hput⟩
    · exact .inl ⟨e, he⟩
    · cases ha
      exact .inr ⟨q, origin, c, c', rfl, hacc, hput⟩

theorem write_of_accepts {target : Proxy} {key : Segment} {w : TaggedWrite} {q origin : Pointer}
    {c c' : Container} (hq : s.run.registry.get? target.backing = some q)
    (hacc : Accepts s target key (attributed s w) origin c c') :
    write target key w s = .ok () (s.written target key (attributed s w) origin c') := by
  have hlook : (discard (outputPointer target) : RunM Unit) s = .ok () s :=
    (bind_of_ok (outputPointer_of_some s hq)).trans rfl
  have hput := target.put_of_add? hacc.origin_eq hacc.accepts hacc.backing hacc.add
  unfold write
  rw [bind_of_ok hlook, get_bind]
  simp only [liftWrite]
  rw [show target.put key (.tagged { w with source := w.source.or s.run.current }) s.workspace = _
    from hput]
  rfl

theorem write_of_member? {target : Proxy} {key : Segment} {w : TaggedWrite} {q origin : Pointer}
    {c : Container} (hq : s.run.registry.get? target.backing = some q) (ho : w.origin = some origin)
    (hw : s.workspace.accepts target.sink = true)
    (hc : s.workspace.heap.get? target.backing = some c) (hm : (c.member? key).isSome) :
    write target key w s = .error (.write (.duplicateWrite (target.location.append key))) s := by
  have hlook : (discard (outputPointer target) : RunM Unit) s = .ok () s :=
    (bind_of_ok (outputPointer_of_some s hq)).trans rfl
  have hput : target.put key (.tagged (attributed s w)) s.workspace = _ :=
    target.put_of_member? ho hw hc hm
  unfold write
  rw [bind_of_ok hlook, get_bind]
  simp only [liftWrite]
  rw [show target.put key (.tagged { w with source := w.source.or s.run.current }) s.workspace = _
    from hput]

/-- The state in which an allocation writes its container. -/
def allocated (c : Container) : RunState := s.withHeap (s.workspace.heap.alloc c).2

@[simp] theorem size_allocated (c : Container) :
    (allocated s c).workspace.heap.size = s.workspace.heap.size + 1 := Heap.size_alloc _ c

theorem allocate_of_none {parent : Proxy} (h : s.run.registry.get? parent.backing = none)
    (c : Container) (key : Segment) (origin : Pointer) :
    allocate c parent key origin s = .error (.unknownProxy parent.location) s :=
  bind_of_error (outputPointer_of_none s h)

/-- An allocation is refused at once, or its container is made and not placed, or it succeeds. -/
theorem allocate_cases (c : Container) (parent : Proxy) (key : Segment) (origin : Pointer) :
    (∃ e, allocate c parent key origin s = .error e s) ∨
    (∃ e, allocate c parent key origin s = .error e (allocated s c)) ∨
    ∃ q w o d d', s.run.registry.get? parent.backing = some q ∧ w.recurse = false ∧
      w.value = .container s.workspace.heap.size ∧ Accepts (allocated s c) parent key w o d d' ∧
      allocate c parent key origin s = .ok (parent.child key s.workspace.heap.size)
        (((allocated s c).written parent key w o d').registered s.workspace.heap.size
          (q.append key)) := by
  cases hq : s.run.registry.get? parent.backing with
  | none => exact .inl ⟨_, allocate_of_none s hq c key origin⟩
  | some q =>
    refine .inr ?_
    unfold allocate
    rw [bind_of_ok (outputPointer_of_some s hq), get_bind]
    simp only [Workspace.alloc, set_bind]
    rcases write_cases (allocated s c) parent key
      { value := .container (s.workspace.heap.alloc c).1, origin := some origin } with
      ⟨e, he⟩ | ⟨q', o, d, d', _, hacc, hwrite⟩
    · exact .inl ⟨e, bind_of_error he⟩
    · refine .inr ⟨q, _, o, d, d', rfl, rfl, rfl, hacc, ?_⟩
      exact (bind_of_ok hwrite).trans rfl

theorem allocate_of_accepts {c : Container} {parent : Proxy} {key : Segment} {q origin : Pointer}
    {d d' : Container} (hq : s.run.registry.get? parent.backing = some q)
    (hacc : Accepts (allocated s c) parent key
      (attributed s { value := .container s.workspace.heap.size, origin := some origin }) origin d d') :
    allocate c parent key origin s = .ok (parent.child key s.workspace.heap.size)
      (((allocated s c).written parent key
        (attributed s { value := .container s.workspace.heap.size, origin := some origin }) origin
        d').registered s.workspace.heap.size (q.append key)) := by
  unfold allocate
  rw [bind_of_ok (outputPointer_of_some s hq), get_bind]
  simp only [Workspace.alloc, set_bind]
  exact (bind_of_ok (write_of_accepts (allocated s c) hq hacc)).trans rfl

theorem allocate_of_member? {parent : Proxy} {key : Segment} {q : Pointer} {d : Container}
    (hq : s.run.registry.get? parent.backing = some q)
    (hw : s.workspace.accepts parent.sink = true)
    (hd : s.workspace.heap.get? parent.backing = some d) (hm : (d.member? key).isSome)
    (c : Container) (origin : Pointer) :
    allocate c parent key origin s =
      .error (.write (.duplicateWrite (parent.location.append key))) (allocated s c) := by
  have hgrown : (allocated s c).workspace.heap.get? parent.backing = some d :=
    (Heap.grows_alloc _ c).get? hd
  unfold allocate
  rw [bind_of_ok (outputPointer_of_some s hq), get_bind]
  simp only [Workspace.alloc, set_bind]
  exact bind_of_error (write_of_member? (allocated s c) hq rfl hw hgrown hm)

/-- The state in which a deep copy of a value is made. -/
def duplicated (v : Tree) : RunState := s.withHeap (s.workspace.heap.duplicate v).2

/-- Placing a copy is placing the copied value in a heap that has grown by it. -/
theorem placeCopy_eq (target : Proxy) (key : Segment) (origin : Pointer) (v : Tree)
    (recurse : Bool) : placeCopy target key origin v recurse s =
      place target key origin (s.workspace.heap.duplicate v).1 recurse (duplicated s v) := rfl

/-- What may be reopened is a container of the kind, registered for the very place. -/
theorem reopenable?_eq_some_iff {isArray : Bool} {pointer : Pointer} {existing : Tree}
    {id : ContainerId} : reopenable? s isArray pointer existing = some id ↔
      existing = .container id ∧
      (∃ c, s.workspace.heap.get? id = some c ∧ c.isArray = isArray) ∧
      ∃ r, s.run.registry.get? id = some r ∧ r.tokens = pointer.tokens := by
  simp only [reopenable?, bind, Option.bind_eq_some_iff]
  constructor
  · rintro ⟨i, hi, c, hc, r, hr, hid⟩
    split at hid
    · rename_i hsame
      cases hid
      rw [Bool.and_eq_true, beq_iff_eq] at hsame
      exact ⟨Tree.eq_container_of_id? hi, ⟨c, hc, hsame.1⟩, r, hr, Pointer.beq_iff.mp hsame.2⟩
    · cases hid
  · rintro ⟨rfl, ⟨c, hc, rfl⟩, r, hr, htokens⟩
    refine ⟨id, rfl, c, hc, r, hr, if_pos ?_⟩
    rw [beq_self_eq_true, Pointer.beq_iff.mpr htokens, Bool.and_true]

theorem reopenOrAllocate_of_vacant {c : Container} {parent : Proxy} {key : Segment}
    (hm : s.workspace.heap.member? parent.tree key = none) (origin : Pointer) :
    reopenOrAllocate c parent key origin s = allocate c parent key origin s := by
  unfold reopenOrAllocate
  rw [get_bind, hm]

theorem reopenOrAllocate_of_member {c : Container} {parent : Proxy} {key : Segment}
    {existing : Tree} {q : Pointer}
    (hm : s.workspace.heap.member? parent.tree key = some existing)
    (hq : s.run.registry.get? parent.backing = some q) (origin : Pointer) :
    reopenOrAllocate c parent key origin s =
      match reopenable? s c.isArray (q.append key) existing with
      | some id => .ok (parent.child key id) s
      | none => .error (.write (.duplicateWrite (q.append key))) s := by
  unfold reopenOrAllocate
  rw [get_bind, hm]
  dsimp only
  rw [bind_of_ok (outputPointer_of_some s hq), get_bind]
  cases reopenable? s c.isArray (q.append key) existing <;> rfl

/-- A container comes from `open` in one of two ways: where nothing stands it is allocated, and where
the run's own container stands it is the one that is registered for this very place. -/
theorem reopenOrAllocate_cases (c : Container) (parent : Proxy) (key : Segment)
    (origin : Pointer) :
    reopenOrAllocate c parent key origin s = allocate c parent key origin s ∨
    (∃ e, reopenOrAllocate c parent key origin s = .error e s) ∨
    ∃ q r id, s.run.registry.get? parent.backing = some q ∧ s.run.registry.get? id = some r ∧
      r.tokens = (q.append key).tokens ∧
      reopenOrAllocate c parent key origin s = .ok (parent.child key id) s := by
  cases hm : s.workspace.heap.member? parent.tree key with
  | none => exact .inl (reopenOrAllocate_of_vacant s hm origin)
  | some existing =>
    refine .inr ?_
    cases hq : s.run.registry.get? parent.backing with
    | none =>
      unfold reopenOrAllocate
      rw [get_bind, hm]
      exact .inl ⟨_, bind_of_error (outputPointer_of_none s hq)⟩
    | some q =>
      rw [reopenOrAllocate_of_member s hm hq]
      cases hid : reopenable? s c.isArray (q.append key) existing with
      | none => exact .inl ⟨_, rfl⟩
      | some id =>
        obtain ⟨_, _, r, hr, htokens⟩ := (reopenable?_eq_some_iff s).mp hid
        exact .inr ⟨q, r, id, rfl, hr, htokens, rfl⟩

end Run

/-- What an operation through `p` leaves behind. It may have made containers; it has written through
`p` or not; and what it has written may be a new container that it then registers. A direct write
does not ask whether the container of `p` is registered. -/
inductive Effect (s : RunState) (p : Proxy) (isDirect : Bool) : RunState → Prop
  | grown {heap : Heap} (hg : s.workspace.heap.Grows heap)
      (hi : s.workspace.heap.Indexable → heap.Indexable) : Effect s p isDirect (s.withHeap heap)
  | written {heap : Heap} (hg : s.workspace.heap.Grows heap)
      (hi : s.workspace.heap.Indexable → heap.Indexable) {key : Segment} {write : TaggedWrite}
      {origin : Pointer} {c c' : Container} (hacc : Accepts (s.withHeap heap) p key write origin c c')
      (hreg : isDirect = true ∨ ∃ q, s.run.registry.get? p.backing = some q) :
      Effect s p isDirect ((s.withHeap heap).written p key write origin c')
  | allocated (c : Container) (hc : c.size = 0) {key : Segment} {write : TaggedWrite}
      {origin : Pointer} {d d' : Container} (hrec : write.recurse = false)
      (hval : write.value = .container s.workspace.heap.size)
      (hacc : Accepts (Run.allocated s c) p key write origin d d') {q : Pointer}
      (hreg : s.run.registry.get? p.backing = some q) :
      Effect s p isDirect (((Run.allocated s c).written p key write origin d').registered
        s.workspace.heap.size (q.append key))

theorem Effect.root_eq {s s' : RunState} {p : Proxy} {isDirect : Bool}
    (h : Effect s p isDirect s') : s'.run.root = s.run.root := by
  cases h <;> rfl

theorem Effect.table_eq {s s' : RunState} {p : Proxy} {isDirect : Bool}
    (h : Effect s p isDirect s') : s'.run.table = s.run.table := by
  cases h <;> rfl

theorem Effect.inputs_eq {s s' : RunState} {p : Proxy} {isDirect : Bool}
    (h : Effect s p isDirect s') : s'.run.inputs = s.run.inputs := by
  cases h <;> rfl

theorem Effect.current_eq {s s' : RunState} {p : Proxy} {isDirect : Bool}
    (h : Effect s p isDirect s') : s'.run.current = s.run.current := by
  cases h <;> rfl

/-- The second run has what the first one started with. -/
structure Run.SameStart (r r' : Run) : Prop where
  root_eq : r'.root = r.root
  table_eq : r'.table = r.table
  inputs_eq : r'.inputs = r.inputs

theorem Run.SameStart.refl (r : Run) : r.SameStart r := ⟨rfl, rfl, rfl⟩

theorem Run.SameStart.trans {r r' r'' : Run} (h : r.SameStart r') (h' : r'.SameStart r'') :
    r.SameStart r'' :=
  ⟨h'.root_eq.trans h.root_eq, h'.table_eq.trans h.table_eq, h'.inputs_eq.trans h.inputs_eq⟩

theorem Effect.sameStart {s s' : RunState} {p : Proxy} {isDirect : Bool}
    (h : Effect s p isDirect s') : s.run.SameStart s'.run :=
  ⟨h.root_eq, h.table_eq, h.inputs_eq⟩

/-- What an operation through `parent` may answer with: a proxy like `parent`, over a container that
is registered for a key below the container of `parent`. -/
def Answers (s : RunState) (parent : Proxy) (s' : RunState) (p : Proxy) : Prop :=
  ∃ key id q r, p = parent.child key id ∧ s.run.registry.get? parent.backing = some q ∧
    s'.run.registry.get? id = some r ∧ r.tokens = q.tokens ++ [key.token]

namespace Run

variable {s : RunState} {isDirect : Bool}

theorem effect_self (p : Proxy) : Effect s p isDirect s :=
  .grown (.refl _) fun hi => hi

theorem effect_put (p : Proxy) (key : Segment) (a : Assignment) :
    Effect s p true (after (liftWrite (p.put key a) s)) := by
  rcases liftWrite_put_cases s p key a with ⟨e, he⟩ | ⟨_, _, _, _, _, hacc, hok⟩
  · rw [he]
    exact effect_self p
  · rw [hok]
    exact .written (.refl _) (fun hi => hi) hacc (.inl rfl)

theorem effect_write (p : Proxy) (key : Segment) (w : TaggedWrite) :
    Effect s p false (after (write p key w s)) := by
  rcases write_cases s p key w with ⟨e, he⟩ | ⟨q, _, _, _, hq, hacc, hok⟩
  · rw [he]
    exact effect_self p
  · rw [hok]
    exact .written (.refl _) (fun hi => hi) hacc (.inr ⟨q, hq⟩)

theorem effect_placeCopy (p : Proxy) (key : Segment) (origin : Pointer) (v : Tree)
    (recurse : Bool) : Effect s p false (after (placeCopy p key origin v recurse s)) := by
  have hg := Heap.grows_duplicate s.workspace.heap v
  have hi : s.workspace.heap.Indexable → _ := fun h => h.duplicate v
  rw [placeCopy_eq, place]
  rcases write_cases (duplicated s v) p key _ with ⟨e, he⟩ | ⟨q, _, _, _, hq, hacc, hok⟩
  · rw [he]
    exact .grown hg hi
  · rw [hok]
    exact .written hg hi hacc (.inr ⟨q, hq⟩)

theorem effect_allocate {c : Container} (hc : c.size = 0) (p : Proxy) (key : Segment)
    (origin : Pointer) : Effect s p false (after (allocate c p key origin s)) := by
  rcases allocate_cases s c p key origin with
    ⟨e, he⟩ | ⟨e, he⟩ | ⟨q, _, _, _, _, hq, hrec, hval, hacc, hok⟩
  · rw [he]
    exact effect_self p
  · rw [he]
    exact .grown (Heap.grows_alloc _ c) fun h => h.alloc (Container.indexable_of_size_eq_zero hc)
  · rw [hok]
    exact .allocated c hc hrec hval hacc hq

theorem effect_reopenOrAllocate {c : Container} (hc : c.size = 0) (p : Proxy) (key : Segment)
    (origin : Pointer) : Effect s p false (after (reopenOrAllocate c p key origin s)) := by
  rcases reopenOrAllocate_cases s c p key origin with heq | ⟨e, he⟩ | ⟨_, _, _, _, _, _, hok⟩
  · rw [heq]
    exact effect_allocate hc p key origin
  · rw [he]
    exact effect_self p
  · rw [hok]
    exact effect_self p

theorem answers_of_allocate {c : Container} {parent p : Proxy} {key : Segment} {origin : Pointer}
    {s' : RunState} (h : allocate c parent key origin s = .ok p s') : Answers s parent s' p := by
  rcases allocate_cases s c parent key origin with
    ⟨e, he⟩ | ⟨e, he⟩ | ⟨q, _, _, _, _, hq, _, _, _, hok⟩
  · rw [he] at h
    cases h
  · rw [he] at h
    cases h
  · rw [hok] at h
    cases h
    refine ⟨key, _, q, q.append key, rfl, hq, ?_, Pointer.tokens_append _ _⟩
    exact (OrderedMap.get?_insert _ _ _ _).trans (if_pos rfl)

theorem answers_of_reopenOrAllocate {c : Container} {parent p : Proxy} {key : Segment}
    {origin : Pointer} {s' : RunState} (h : reopenOrAllocate c parent key origin s = .ok p s') :
    Answers s parent s' p := by
  rcases reopenOrAllocate_cases s c parent key origin with
    heq | ⟨e, he⟩ | ⟨q, r, id, hq, hr, htok, hok⟩
  · rw [heq] at h
    exact answers_of_allocate h
  · rw [he] at h
    cases h
  · rw [hok] at h
    cases h
    exact ⟨key, id, q, r, rfl, hq, hr, htok.trans (Pointer.tokens_append _ _)⟩

end Run

end Lineage
