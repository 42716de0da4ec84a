import Lineage.Output.Proxy
import Lineage.Proofs.Tree.Growth

/-! What a guarded write does. It is refused and changes nothing, or it adds one member to the
container of its proxy and delivers its mappings to the sink: one for the place itself and, for a
recursive write of a composite value, one for every leaf below it. -/

namespace Lineage

variable {ε σ α : Type}

/-- What is left after an operation, whether it succeeds or not. -/
def after : EStateM.Result ε σ α → σ
  | .ok _ s => s
  | .error _ s => s

def succeeds : EStateM.Result ε σ α → Bool
  | .ok _ _ => true
  | .error _ _ => false

theorem eq_ok_of_succeeds {r : EStateM.Result ε σ α} (h : succeeds r) : ∃ a, r = .ok a (after r) := by
  cases r with
  | ok a s => exact ⟨a, rfl⟩
  | error e s => cases h

theorem bind_of_ok {β : Type} {m : EStateM ε σ α} {f : α → EStateM ε σ β} {s s' : σ} {a : α}
    (h : m s = .ok a s') : (m >>= f) s = f a s' := by
  simp only [bind, EStateM.bind, h]

theorem bind_of_error {β : Type} {m : EStateM ε σ α} {f : α → EStateM ε σ β} {s s' : σ} {e : ε}
    (h : m s = .error e s') : (m >>= f) s = .error e s' := by
  simp only [bind, EStateM.bind, h]

theorem get_bind {β : Type} (f : σ → EStateM ε σ β) (s : σ) : (get >>= f) s = f s s := rfl

theorem set_bind {β : Type} (s' : σ) (f : PUnit → EStateM ε σ β) (s : σ) :
    (set s' >>= f) s = f ⟨⟩ s' := rfl

theorem after_swallow (m : EStateM ε σ α) (a : α) (s : σ) :
    after (tryCatch m (fun _ => pure a) s) = after (m s) := by
  change after (EStateM.tryCatch m _ s) = after (m s)
  delta EStateM.tryCatch
  cases m s <;> rfl

namespace Workspace

/-- Delivers mappings to a table, in order. -/
def recordAll (w : Workspace) (id : TableId) (ms : List Mapping) : Workspace :=
  w.modifyTable id fun t => { t with entries := t.entries ++ ms }

theorem modifyTable_modifyTable (w : Workspace) (id : TableId) (f g : MappingTable → MappingTable) :
    (w.modifyTable id f).modifyTable id g = w.modifyTable id (g ∘ f) := by
  simp only [modifyTable]
  congr 1
  apply Array.ext'
  simp [List.modify_modify_eq]

theorem recordAll_nil (w : Workspace) (id : TableId) : w.recordAll id [] = w := by
  have hid : w.tables.modify id (fun t => { t with entries := t.entries ++ [] }) = w.tables := by
    apply Array.ext_getElem?
    intro i
    rw [Array.getElem?_modify]
    split
    · simp
    · rfl
  simp only [recordAll, modifyTable, hid]

theorem recordAll_cons (w : Workspace) (id : TableId) (m : Mapping) (ms : List Mapping) :
    (w.modifyTable id (·.record m)).recordAll id ms = w.recordAll id (m :: ms) := by
  rw [recordAll, modifyTable_modifyTable]
  simp only [recordAll, Function.comp_def, MappingTable.record, List.append_assoc,
    List.singleton_append]

theorem table?_modifyTable (w : Workspace) (id id' : TableId) (f : MappingTable → MappingTable) :
    (w.modifyTable id f).table? id' = if id = id' then (w.table? id').map f else w.table? id' :=
  Array.getElem?_modify

theorem table?_recordAll (w : Workspace) (id : TableId) (ms : List Mapping) :
    (w.recordAll id ms).table? id =
      (w.table? id).map fun t => { t with entries := t.entries ++ ms } :=
  (w.table?_modifyTable id id _).trans (if_pos rfl)

theorem tableEntries_recordAll {w : Workspace} {id : TableId} {t : MappingTable}
    (ht : w.table? id = some t) (ms : List Mapping) :
    (w.recordAll id ms).tableEntries id = w.tableEntries id ++ ms := by
  rw [tableEntries, table?_recordAll, tableEntries, ht]
  rfl

theorem table?_recordAll_of_ne {id id' : TableId} (hne : id ≠ id') (w : Workspace) (ms : List Mapping) :
    (w.recordAll id ms).table? id' = w.table? id' :=
  (w.table?_modifyTable id id' _).trans (if_neg hne)

/-- Sealing keeps the mappings of every table. -/
theorem tableEntries_sealed (w : Workspace) (id id' : TableId) :
    (w.modifyTable id MappingTable.sealed).tableEntries id' = w.tableEntries id' := by
  rw [tableEntries, table?_modifyTable, tableEntries]
  split
  · rw [Option.map_map]
    rfl
  · rfl

/-- A sealed table is closed to those who ask. -/
theorem accepts_sealed (w : Workspace) (id : TableId) :
    (w.modifyTable id MappingTable.sealed).accepts ⟨id, false⟩ = false := by
  rw [accepts, table?_modifyTable, if_pos rfl]
  cases w.table? id <;> rfl

theorem accepts_of_isOpen {w : Workspace} {s : Sink} {ms : List Mapping}
    (ht : w.table? s.table = some ⟨ms, false⟩) : w.accepts s = true := by
  simp [accepts, ht, MappingTable.isOpen]

theorem exists_table_of_accepts {w : Workspace} {s : Sink} (h : w.accepts s = true) :
    ∃ t, w.table? s.table = some t := by
  unfold accepts at h
  split at h
  · exact ⟨_, ‹_›⟩
  · cases h

end Workspace

namespace Proxy

/-- The mapping of a written place. -/
def topMapping (p : Proxy) (key : Segment) (write : TaggedWrite) (origin : Pointer) : Mapping :=
  { generated := p.location.append key, origin, source := write.source.getD p.source,
    auxiliary := write.auxiliary, recurse := write.recurse }

/-- All mappings of an accepted write, whose leaves are those of the heap after it. -/
def mappingsOf (p : Proxy) (key : Segment) (write : TaggedWrite) (origin : Pointer) (h : Heap) :
    List Mapping :=
  p.topMapping key write origin ::
    if write.recurse && write.value.isComposite then
      (h.leaves write.value).map (leafMapping (p.topMapping key write origin))
    else []

theorem forM_deliver (s : Sink) (f : Node → Mapping) (leaves : List Node) (w : Workspace) :
    (leaves.forM fun leaf => deliver s (f leaf)) w = .ok () (w.recordAll s.table (leaves.map f)) := by
  induction leaves generalizing w with
  | nil => rw [List.map_nil, Workspace.recordAll_nil]; rfl
  | cons n rest ih =>
    rw [List.map_cons, ← Workspace.recordAll_cons]
    exact ih _

/-- A value goes in where the container has room for it, and nothing happens otherwise. -/
theorem insertAt_cases (p : Proxy) (key : Segment) (generated : Pointer) (v : Tree)
    (w : Workspace) :
    (∃ e, p.insertAt key generated v w = .error e w) ∨
    ∃ c c', w.heap.get? p.backing = some c ∧ c.add? key v = some c' ∧
      p.insertAt key generated v w = .ok () { w with heap := w.heap.set p.backing c' } := by
  unfold insertAt
  rw [get_bind]
  cases hc : w.heap.get? p.backing with
  | none => exact .inl ⟨_, rfl⟩
  | some c =>
    cases c with
    | object members =>
      by_cases hk : members.contains key.token
      · exact .inl ⟨_, by simp only [hk]; rfl⟩
      · exact .inr ⟨_, _, rfl, if_neg hk, by simp only [hk]; rfl⟩
    | array items =>
      cases hi : key.asIndex with
      | none => exact .inl ⟨_, rfl⟩
      | some i =>
        rcases Nat.lt_trichotomy i items.length with h | rfl | h
        · exact .inl ⟨_, by simp only [if_pos h]; rfl⟩
        · exact .inr ⟨_, _, rfl, if_pos hi, by simp only [gt_iff_lt, Nat.lt_irrefl, if_false]; rfl⟩
        · exact .inl ⟨_, by simp only [if_neg (Nat.not_lt_of_gt h), gt_iff_lt, if_pos h]; rfl⟩

theorem insertAt_of_add? (p : Proxy) {key : Segment} (generated : Pointer) {v : Tree}
    {w : Workspace} {c c' : Container} (hc : w.heap.get? p.backing = some c)
    (hadd : c.add? key v = some c') :
    p.insertAt key generated v w = .ok () { w with heap := w.heap.set p.backing c' } := by
  unfold insertAt
  rw [get_bind]
  cases c with
  | object members =>
    simp only [Container.add?] at hadd
    split at hadd
    · cases hadd
    · rename_i hk
      cases hadd
      simp only [hc, hk]
      rfl
  | array items =>
    simp only [Container.add?] at hadd
    split at hadd
    · rename_i hk
      cases hadd
      simp only [hc, hk, Nat.lt_irrefl, gt_iff_lt, if_false]
      rfl
    · cases hadd

/-- Nothing goes in where the container has a member already. -/
theorem insertAt_of_member? (p : Proxy) {key : Segment} (generated : Pointer) (v : Tree) {w : Workspace}
    {c : Container} (hc : w.heap.get? p.backing = some c) (hm : (c.member? key).isSome) :
    p.insertAt key generated v w = .error (.duplicateWrite generated) w := by
  unfold insertAt
  rw [get_bind]
  cases c with
  | object members =>
    have hk : members.contains key.token = true := hm
    simp only [hc, hk]
    rfl
  | array items =>
    obtain ⟨t, ht⟩ := Option.isSome_iff_exists.mp hm
    obtain ⟨i, hi, hitem⟩ := Option.bind_eq_some_iff.mp ht
    have hlt : i < items.length := (List.getElem?_eq_some_iff.mp hitem).1
    simp only [hc, hi, if_pos hlt]
    rfl

/-- What an accepted write leaves behind. -/
def written (p : Proxy) (key : Segment) (write : TaggedWrite) (origin : Pointer) (c' : Container)
    (w : Workspace) : Workspace :=
  let heap := w.heap.set p.backing c'
  { w with heap }.recordAll p.sink.table (p.mappingsOf key write origin heap)

/-- A write that names its origin is accepted where the sink is open and the container has room. -/
theorem put_of_add? (p : Proxy) {key : Segment} {write : TaggedWrite} {origin : Pointer}
    {w : Workspace} {c c' : Container} (ho : write.origin = some origin)
    (hw : w.accepts p.sink = true) (hc : w.heap.get? p.backing = some c)
    (hadd : c.add? key write.value = some c') :
    p.put key (.tagged write) w = .ok () (p.written key write origin c' w) := by
  have hins := p.insertAt_of_add? (p.location.append key) hc hadd
  simp only [put, ho, get_bind, hw, Bool.not_true, Bool.false_eq_true, if_false]
  rw [bind_of_ok hins, written, mappingsOf, ← Workspace.recordAll_cons]
  refine (bind_of_ok rfl).trans ?_
  split
  · exact forM_deliver _ _ _ _
  · rw [Workspace.recordAll_nil]; rfl

/-- Each place is written once. -/
theorem put_of_member? (p : Proxy) {key : Segment} {write : TaggedWrite} {origin : Pointer}
    {w : Workspace} {c : Container} (ho : write.origin = some origin) (hw : w.accepts p.sink = true)
    (hc : w.heap.get? p.backing = some c) (hm : (c.member? key).isSome) :
    p.put key (.tagged write) w = .error (.duplicateWrite (p.location.append key)) w := by
  have hins := p.insertAt_of_member? (p.location.append key) write.value hc hm
  simp only [put, ho, get_bind, hw, Bool.not_true, Bool.false_eq_true, if_false]
  exact bind_of_error hins

/-- A write is refused and changes nothing, or it is accepted. -/
theorem put_cases (p : Proxy) (key : Segment) (a : Assignment) (w : Workspace) :
    (∃ e, p.put key a w = .error e w) ∨
    ∃ write origin c c', a = .tagged write ∧ write.origin = some origin ∧
      w.accepts p.sink = true ∧ w.heap.get? p.backing = some c ∧
      c.add? key write.value = some c' ∧
      p.put key a w = .ok () (p.written key write origin c' w) := by
  cases a with
  | bare v => exact .inl ⟨_, rfl⟩
  | tagged write =>
    cases ho : write.origin with
    | none => exact .inl ⟨_, by simp only [put, ho]; rfl⟩
    | some origin =>
      simp only [put, ho, get_bind]
      cases hw : w.accepts p.sink with
      | false => exact .inl ⟨_, rfl⟩
      | true =>
        simp only [Bool.not_true, Bool.false_eq_true, if_false]
        rcases p.insertAt_cases key (p.location.append key) write.value w with
          ⟨e, he⟩ | ⟨c, c', hc, hadd, hins⟩
        · exact .inl ⟨e, bind_of_error he⟩
        · refine .inr ⟨write, origin, c, c', rfl, ho, trivial, hc, hadd, ?_⟩
          rw [bind_of_ok hins, written, mappingsOf, ← Workspace.recordAll_cons]
          refine (bind_of_ok rfl).trans ?_
          split
          · exact forM_deliver _ _ _ _
          · rw [Workspace.recordAll_nil]; rfl

end Proxy

end Lineage
