import Lineage.Proofs.Output.Attempts

/-! What becomes of a table after it was sealed. Sealing is respected by those who ask: a write through a
proxy whose sink asks the table is refused. Whoever records into the table itself does not ask, and no
more does a sink that forwards to it without passing the question on. What they deliver is still added, so
that later answers are the sealed entries and, after them, exactly what was delivered without asking. -/

namespace Lineage

namespace DirectWrite

/-- The mappings that the write delivers to its sink, none if it is refused. -/
def delivered (d : DirectWrite) (w : Workspace) : List Mapping :=
  match d.run w, d.assignment with
  | .ok _ w', .tagged write =>
    (write.origin.map fun origin => d.proxy.mappingsOf (d.key w) write origin w'.heap).getD []
  | _, _ => []

/-- A write is refused and changes nothing, or it changes a container and delivers to an open sink. -/
theorem after_run_cases (d : DirectWrite) (w : Workspace) :
    (after (d.run w) = w ∧ d.delivered w = []) ∨
    w.accepts d.proxy.sink = true ∧ ∃ heap,
      after (d.run w) = { w with heap }.recordAll d.proxy.sink.table (d.delivered w) := by
  unfold delivered
  rw [run_eq_put]
  rcases d.proxy.put_cases (d.key w) d.assignment w with
    ⟨e, he⟩ | ⟨write, origin, c, c', ha, ho, hopen, _, _, hok⟩
  · exact .inl (by rw [he]; exact ⟨rfl, rfl⟩)
  · refine .inr ⟨hopen, w.heap.set d.proxy.backing c', ?_⟩
    rw [hok, ha]
    simp only [after, ho, Option.map_some, Option.getD_some]
    rfl

end DirectWrite

/-- What can be done around mapping tables. -/
inductive TableCall where
  | record (id : TableId) (m : Mapping)
  | write (d : DirectWrite)
  | sealTable (id : TableId)
  | snapshot (id : TableId)
  | newTable
  /-- Containers are changed without writing through proxies. -/
  | edit (heap : Heap)

namespace TableCall

/-- The entries that a call answers with, if it answers any, and what it leaves behind. -/
def run : TableCall → Workspace → Option (List Mapping) × Workspace
  | record id m, w => (none, w.modifyTable id (·.record m))
  | write d, w => (none, after (d.run w))
  | sealTable id, w =>
    let w := w.modifyTable id MappingTable.sealed
    (some (w.tableEntries id), w)
  | snapshot id, w => (some (w.tableEntries id), w)
  | newTable, w => (none, w.newTable.2)
  | edit heap, w => (none, { w with heap })

def runAll (calls : List TableCall) (w : Workspace) : Workspace :=
  calls.foldl (fun w c => (c.run w).2) w

@[simp] theorem runAll_nil (w : Workspace) : runAll [] w = w := rfl

@[simp] theorem runAll_cons (c : TableCall) (calls : List TableCall) (w : Workspace) :
    runAll (c :: calls) w = runAll calls (c.run w).2 := rfl

/-- The call asks whether the table is sealed before it adds anything to it. -/
def Asks (id : TableId) : TableCall → Prop
  | record id' _ => id' ≠ id
  | write d => d.proxy.sink ≠ ⟨id, true⟩
  | sealTable _ | snapshot _ | newTable | edit _ => True

instance (id : TableId) : DecidablePred (Asks id)
  | record id' _ => inferInstanceAs (Decidable (id' ≠ id))
  | write d => inferInstanceAs (Decidable (d.proxy.sink ≠ ⟨id, true⟩))
  | sealTable _ | snapshot _ | newTable | edit _ => isTrue trivial

/-- The mappings that the call adds to the table without asking whether it is sealed. -/
def unasked (id : TableId) (c : TableCall) (w : Workspace) : List Mapping :=
  match c with
  | record id' m => if id' = id then [m] else []
  | write d => if d.proxy.sink = ⟨id, true⟩ then d.delivered w else []
  | sealTable _ | snapshot _ | newTable | edit _ => []

/-- Those of calls one after the other. -/
def unaskedAll (id : TableId) : List TableCall → Workspace → List Mapping
  | [], _ => []
  | c :: calls, w => c.unasked id w ++ unaskedAll id calls (c.run w).2

variable {id : TableId} {t : MappingTable} {w : Workspace} {calls : List TableCall}

/-- Only sinks that do not ask are open to a sealed table. -/
theorem sink_of_accepts {s : Sink} (ht : w.table? id = some t) (hsealed : t.isSealed = true)
    (hopen : w.accepts s = true) (hid : s.table = id) : s = ⟨id, true⟩ := by
  obtain ⟨table, unconditional⟩ := s
  subst hid
  simp only [Workspace.accepts, ht, MappingTable.isOpen, hsealed, Bool.not_true, Bool.or_false] at hopen
  rw [hopen]

theorem unasked_of_asks {c : TableCall} (hc : c.Asks id) (w : Workspace) : c.unasked id w = [] := by
  cases c with
  | record => exact if_neg hc
  | write => exact if_neg hc
  | _ => rfl

/-- A write adds to a sealed table only what it delivers without asking. -/
theorem table?_after_write (ht : w.table? id = some t) (hsealed : t.isSealed = true) (d : DirectWrite) :
    (after (d.run w)).table? id = some { t with entries := t.entries ++ (write d).unasked id w } := by
  rw [unasked]
  rcases d.after_run_cases w with ⟨hw, hnone⟩ | ⟨hopen, heap, hw⟩
  · rw [hw, hnone, ite_self, List.append_nil, ht]
  · have ht' : { w with heap }.table? id = some t := ht
    by_cases hid : d.proxy.sink.table = id
    · rw [if_pos (sink_of_accepts ht hsealed hopen hid), hw, hid, Workspace.table?_recordAll, ht']
      rfl
    · have hother : d.proxy.sink ≠ ⟨id, true⟩ := fun hsink => hid (congrArg Sink.table hsink)
      rw [if_neg hother, List.append_nil, hw, Workspace.table?_recordAll_of_ne hid, ht']

/-- A call leaves a table sealed and adds to it what it delivers without asking. -/
theorem table?_run (ht : w.table? id = some t) (hsealed : t.isSealed = true) (c : TableCall) :
    (c.run w).2.table? id = some { t with entries := t.entries ++ c.unasked id w } := by
  cases c with
  | record id' m =>
    rw [run, Workspace.table?_modifyTable, ht, unasked]
    split
    · rfl
    · rw [List.append_nil]
  | write d => exact table?_after_write ht hsealed d
  | sealTable id' =>
    have hsame : t.sealed = t := by rw [MappingTable.sealed, ← hsealed]
    rw [run, Workspace.table?_modifyTable, ht, unasked, List.append_nil, Option.map_some, hsame, ite_self]
  | snapshot id' => rw [run, ht, unasked, List.append_nil]
  | newTable =>
    have hlt : id < w.tables.size := (Array.getElem?_eq_some_iff.mp ht).1
    rw [unasked, List.append_nil, ← ht]
    exact (Array.getElem?_push_lt hlt).trans (Array.getElem?_eq_getElem hlt).symm
  | edit heap =>
    rw [unasked, List.append_nil]
    exact ht

theorem table?_runAll (ht : w.table? id = some t) (hsealed : t.isSealed = true) (calls : List TableCall) :
    (runAll calls w).table? id = some { t with entries := t.entries ++ unaskedAll id calls w } := by
  induction calls generalizing t w with
  | nil => rw [unaskedAll, List.append_nil, runAll_nil, ht]
  | cons c calls ih =>
    rw [runAll_cons, ih (table?_run ht hsealed c) hsealed, unaskedAll, List.append_assoc]

theorem unaskedAll_of_asks (hcalls : ∀ c ∈ calls, c.Asks id) (w : Workspace) :
    unaskedAll id calls w = [] := by
  induction calls generalizing w with
  | nil => rfl
  | cons c calls ih =>
    rw [List.forall_mem_cons] at hcalls
    rw [unaskedAll, unasked_of_asks hcalls.1, ih hcalls.2, List.nil_append]

/-- After a table was sealed, and whatever was done since, it answers with the entries that it was sealed
with and, after them, exactly those that were delivered without asking, in order. Where all calls ask,
every answer is the first one. Writes through proxies whose sinks ask are refused and change nothing. -/
theorem answers_after_seal {w : Workspace} {id : TableId} (hid : (w.table? id).isSome)
    (calls : List TableCall) :
    let first := (sealTable id).run w
    let later := runAll calls first.2
    first.1 = some (w.tableEntries id) ∧
    (∀ c ∈ [snapshot id, sealTable id],
      (c.run later).1 = some (w.tableEntries id ++ unaskedAll id calls first.2)) ∧
    ((∀ c ∈ calls, c.Asks id) → ∀ c ∈ [snapshot id, sealTable id], (c.run later).1 = first.1) ∧
    ∀ d : DirectWrite, d.proxy.sink = ⟨id, false⟩ → ∃ e, d.run later = .error e later := by
  intro first later
  obtain ⟨t, ht⟩ := Option.isSome_iff_exists.mp hid
  have hentries : w.tableEntries id = t.entries := by rw [Workspace.tableEntries, ht]; rfl
  have hfirst : first.1 = some (w.tableEntries id) := congrArg some (w.tableEntries_sealed id id)
  have hsealed : first.2.table? id = some t.sealed := by
    change (w.modifyTable id MappingTable.sealed).table? id = _
    rw [Workspace.table?_modifyTable, if_pos rfl, ht]
    rfl
  have hlater := table?_runAll hsealed rfl calls
  have hlaterEntries : later.tableEntries id = w.tableEntries id ++ unaskedAll id calls first.2 := by
    rw [Workspace.tableEntries, hlater, hentries]
    rfl
  have hanswers : ∀ c ∈ [snapshot id, sealTable id],
      (c.run later).1 = some (w.tableEntries id ++ unaskedAll id calls first.2) := by
    simp only [List.forall_mem_cons, List.not_mem_nil, false_imp_iff, implies_true, and_true, run,
      Workspace.tableEntries_sealed, hlaterEntries]
  refine ⟨hfirst, hanswers, fun hasks c hc => ?_, fun d hd => ?_⟩
  · rw [hanswers c hc, unaskedAll_of_asks hasks, List.append_nil, hfirst]
  · refine d.run_of_closed ?_
    rw [hd, Workspace.accepts, hlater]
    rfl

/-- A table with one mapping, besides an empty object. -/
def inventory : Workspace where
  heap := ⟨#[.emptyObject]⟩
  tables := #[{ entries := [{ generated := .root, origin := .root, source := ⟨"d1"⟩ }] }]

/-- The mapping that comes late. -/
def latecomer : Mapping :=
  { generated := ⟨[.ofToken "b"]⟩, origin := .root, source := ⟨"d1"⟩ }

/-- A write to the object through a proxy with the given sink. -/
def lateWrite (sink : Sink) : TableCall :=
  .write (.put ⟨0, .root, ⟨"d1"⟩, sink⟩ (.ofToken "b") (.tagged { value := .null, origin := some .root }))

theorem answers_after_seal_asked :
    let first := (sealTable 0).run inventory
    let later := runAll [lateWrite ⟨0, false⟩, sealTable 0, newTable, record 1 latecomer] first.2
    ((snapshot 0).run later).1 = first.1 ∧ ((sealTable 0).run later).1 = first.1 := by
  have hid : (inventory.table? 0).isSome = true := rfl
  have hall := (answers_after_seal hid
    [lateWrite ⟨0, false⟩, sealTable 0, newTable, record 1 latecomer]).2.2.1 (by decide)
  exact ⟨hall _ List.mem_cons_self, hall _ (List.mem_cons_of_mem _ List.mem_cons_self)⟩

/-- Recording into a sealed table changes what it answers, and so does writing through a sink that does
not ask it. -/
theorem answers_change_after_seal :
    let first := (sealTable 0).run inventory
    ((snapshot 0).run (runAll [record 0 latecomer] first.2)).1 ≠ first.1 ∧
      ((sealTable 0).run (runAll [record 0 latecomer] first.2)).1 ≠ first.1 ∧
      ((snapshot 0).run (runAll [lateWrite ⟨0, true⟩] first.2)).1 ≠ first.1 := by
  decide +kernel

end TableCall

end Lineage
