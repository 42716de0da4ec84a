import Lineage.Proofs.Output.Attempts
import Lineage.Proofs.Output.Guard
import Lineage.Proofs.Provenance.Spelling
import Lineage.Proofs.Tree.RoundTrip

/-! Calls that fill an array. Whoever writes may hand over a loosely shaped record in place of an
assignment, and reading it builds new containers and leaves the old ones alone. In a new array the
accepted writes stand one behind the other, whatever was refused between them: each item is mapped at the
number of writes that were accepted before it.
-/

namespace Lineage

/-- A record says where its value came from: it has a value, and a text that spells the pointer. -/
def Json.NamesOrigin (record : Json) (origin : Pointer) : Prop :=
  (record.member? "value").isSome ∧
    ∃ text, (record.member? "pointer").bind Json.string? = some text ∧ Pointer.parse text = .ok origin

namespace Assignment

variable {record value : Json}

theorem ofJson_of_no_value (h : Heap) (hvalue : record.member? "value" = none) :
    ofJson h record = .ok (.bare (h.addJson record).1, (h.addJson record).2) := by
  cases record with
  | object fields =>
    have hfind : OrderedMap.find "value" fields = none := hvalue
    simp only [ofJson, hfind]
  | _ => rfl

/-- A record with a value is tagged with the origin that its pointer is read as. -/
theorem ofJson_of_value (h : Heap) (hvalue : record.member? "value" = some value) :
    ∃ write : Option Pointer → TaggedWrite, (∀ origin, (write origin).origin = origin) ∧
      ofJson h record =
        (((record.member? "pointer").bind Json.string?).mapM Pointer.parse).map fun origin =>
          (.tagged (write origin), (h.addJson value).2) := by
  cases record with
  | object fields =>
    have hfind : OrderedMap.find "value" fields = some value := hvalue
    refine ⟨fun origin =>
      { value := (h.addJson value).1, origin
        source := ((OrderedMap.find "sourceId" fields).bind Json.string?).map SourceId.mk
        auxiliary := (OrderedMap.find "auxiliary" fields).bind Json.string?
        recurse := ((OrderedMap.find "recurse" fields).bind Json.bool?).getD false }, fun _ => rfl, ?_⟩
    simp only [ofJson, hfind, Json.member?]
    cases ((OrderedMap.find "pointer" fields).bind Json.string?).mapM Pointer.parse <;> rfl
  | _ => cases hvalue

/-- Reading a record fails, or it gives an assignment and perhaps new containers. -/
theorem ofJson_cases (h : Heap) (record : Json) :
    (∃ e, ofJson h record = .error e) ∨ ∃ a h', ofJson h record = .ok (a, h') ∧ h.Grows h' ∧
      ∀ origin, a.origin? = some origin ↔ record.NamesOrigin origin := by
  have hgrows (v : Json) : h.Grows (h.addJson v).2 := (h.addJson_builds v).grows
  cases hvalue : record.member? "value" with
  | none =>
    refine .inr ⟨_, _, ofJson_of_no_value h hvalue, hgrows record, fun origin => ?_⟩
    simp [origin?, Json.NamesOrigin, hvalue]
  | some value =>
    obtain ⟨write, hwrite, hread⟩ := ofJson_of_value h hvalue
    rw [hread]
    cases hpointer : (record.member? "pointer").bind Json.string? with
    | none =>
      refine .inr ⟨.tagged (write none), _, rfl, hgrows value, fun origin => ?_⟩
      simp [origin?, hwrite, Json.NamesOrigin, hpointer]
    | some text =>
      rw [Option.mapM_some]
      cases hparse : Pointer.parse text with
      | error e => exact .inl ⟨e, rfl⟩
      | ok spelled =>
        refine .inr ⟨.tagged (write (some spelled)), _, rfl, hgrows value, fun origin => ?_⟩
        simp [origin?, hwrite, Json.NamesOrigin, hvalue, hpointer, hparse]

end Assignment

/-- What is handed over for a write. -/
inductive Offer where
  | assignment (a : Assignment)
  | record (json : Json)

/-- The assignment in an offer. A record is read on the spot. -/
def Offer.read : Offer → EStateM (PointerError ⊕ WriteError) Workspace Assignment
  | assignment a, w => .ok a w
  | record json, w =>
    match Assignment.ofJson w.heap json with
    | .ok (a, heap) => .ok a { w with heap }
    | .error e => .error (.inl e) w

/-- A write at a key, or behind the last item where none is given. -/
structure Call where
  key? : Option Segment
  offer : Offer

namespace Call

def write (p : Proxy) (call : Call) (a : Assignment) : DirectWrite :=
  match call.key? with
  | some key => .put p key a
  | none => .push p a

/-- Makes the call, and answers what was written. -/
def run (p : Proxy) (call : Call) : EStateM (PointerError ⊕ WriteError) Workspace Assignment := fun w =>
  match call.offer.read w with
  | .error e w => .error e w
  | .ok a w =>
    match (call.write p a).run w with
    | .error e w => .error (.inr e) w
    | .ok () w => .ok a w

variable {p : Proxy} {w : Workspace}

theorem read_cases (offer : Offer) (w : Workspace) : ∃ heap, w.heap.Grows heap ∧
    ((∃ e, offer.read w = .error (.inl e) { w with heap }) ∨ ∃ a, offer.read w = .ok a { w with heap }) := by
  cases offer with
  | assignment a => exact ⟨w.heap, .refl _, .inr ⟨a, rfl⟩⟩
  | record json =>
    rcases Assignment.ofJson_cases w.heap json with ⟨e, he⟩ | ⟨a, heap, hok, hgrows, _⟩
    · refine ⟨w.heap, .refl _, .inl ⟨e, ?_⟩⟩
      rw [Offer.read, he]
    · refine ⟨heap, hgrows, .inr ⟨a, ?_⟩⟩
      rw [Offer.read, hok]

/-- A call leaves new containers at most, or its write is accepted in front of them. -/
theorem run_cases (p : Proxy) (call : Call) (w : Workspace) : ∃ heap, w.heap.Grows heap ∧
    ((∃ e, call.run p w = .error e { w with heap }) ∨
      ∃ key write origin c c', write.origin = some origin ∧ w.accepts p.sink = true ∧
        heap.get? p.backing = some c ∧ c.add? key write.value = some c' ∧
        call.run p w = .ok (.tagged write) (p.written key write origin c' { w with heap })) := by
  obtain ⟨heap, hgrows, ⟨e, he⟩ | ⟨a, ha⟩⟩ := read_cases call.offer w
  · exact ⟨heap, hgrows, .inl ⟨.inl e, by rw [run, he]⟩⟩
  · refine ⟨heap, hgrows, ?_⟩
    have hproxy : (call.write p a).proxy = p := by
      unfold write
      cases call.key? <;> rfl
    have hassignment : (call.write p a).assignment = a := by
      unfold write
      cases call.key? <;> rfl
    have hput := (call.write p a).run_eq_put { w with heap }
    rw [hproxy, hassignment] at hput
    rw [run, ha]
    dsimp only
    rw [hput]
    rcases p.put_cases ((call.write p a).key { w with heap }) a { w with heap } with
      ⟨e, he⟩ | ⟨tagged, origin, c, c', rfl, ho, hopen, hc, hadd, hwritten⟩
    · rw [he]
      exact .inl ⟨_, rfl⟩
    · rw [hwritten]
      exact .inr ⟨_, tagged, origin, c, c', ho, hopen, hc, hadd, rfl⟩

end Call

/-- What the calls that were accepted answered. -/
def accepted {ε α : Type} (answers : List (Except ε α)) : List α := answers.filterMap Except.toOption

namespace Proxy

variable {p : Proxy} {items : List Tree} {w : Workspace}

/-- The mappings of a write that became an item: the first is that of the item. -/
def Delivers (p : Proxy) (item : Assignment × Nat) (block : List Mapping) : Prop :=
  ∃ key write origin h, item.1 = .tagged write ∧ write.origin = some origin ∧
    Same (p.topMapping key write origin).generated (p.location.append (.index item.2)) ∧
    block = p.mappingsOf key write origin h

/-- One call adds an item with its mappings, or neither. -/
theorem appends_of_call (hitems : w.heap.get? p.backing = some (.array items)) (call : Call) :
    (∃ e w', call.run p w = .error e w' ∧ w'.heap.get? p.backing = some (.array items) ∧
      w'.tableEntries p.sink.table = w.tableEntries p.sink.table) ∨
    ∃ a w' block, call.run p w = .ok a w' ∧ p.Delivers (a, items.length) block ∧
      w'.heap.get? p.backing = some (.array (items ++ [a.value])) ∧
      w'.tableEntries p.sink.table = w.tableEntries p.sink.table ++ block := by
  obtain ⟨heap, hgrows, ⟨e, he⟩ | ⟨key, write, origin, c, c', ho, hopen, hc, hadd, hrun⟩⟩ :=
    call.run_cases p w
  · exact .inl ⟨e, _, he, hgrows.get? hitems, rfl⟩
  · refine .inr ⟨_, _, _, hrun, ⟨key, write, origin, heap.set p.backing c', rfl, ho, ?_, rfl⟩, ?_, ?_⟩
    · cases hc.symm.trans (hgrows.get? hitems)
      have hindex := Container.isSome_add?_iff.mp (Option.isSome_iff_exists.mpr ⟨c', hadd⟩)
      refine Pointer.same_append (Pointer.same_refl _) (Segment.same_iff.mpr ?_)
      exact (Segment.asIndex_eq_some_iff.mp hindex).1
    · cases hc.symm.trans (hgrows.get? hitems)
      simp only [Container.add?] at hadd
      split at hadd <;> cases hadd
      refine (Heap.get?_set ..).trans (if_pos ⟨rfl, Heap.lt_size_of_get? hc⟩)
    · obtain ⟨t, ht⟩ := Workspace.exists_table_of_accepts hopen
      exact Workspace.tableEntries_recordAll (w := { w with heap := heap.set p.backing c' }) ht _

/-- Calls that are made one after the other: what they write stands behind the items that were there. -/
theorem appends_of_calls (hitems : w.heap.get? p.backing = some (.array items)) (calls : List Call) :
    let (answers, w') := attempt (Call.run p) calls w
    ∃ blocks, List.Forall₂ p.Delivers ((accepted answers).zipIdx items.length) blocks ∧
      w'.heap.get? p.backing = some (.array (items ++ (accepted answers).map Assignment.value)) ∧
      w'.tableEntries p.sink.table = w.tableEntries p.sink.table ++ blocks.flatten := by
  induction calls generalizing items w with
  | nil => exact ⟨[], .nil, by simpa [attempt, accepted] using hitems, (List.append_nil _).symm⟩
  | cons call rest ih =>
    rw [attempt_cons]
    rcases appends_of_call hitems call with ⟨e, w', hrun, hget, hentries⟩ |
      ⟨a, w', block, hrun, hdelivers, hget, hentries⟩
    · rw [hrun]
      obtain ⟨blocks, hblocks, hitems', htable⟩ := ih hget
      exact ⟨blocks, hblocks, hitems', hentries ▸ htable⟩
    · rw [hrun]
      obtain ⟨blocks, hblocks, hitems', htable⟩ := ih hget
      rw [List.length_append, List.length_singleton] at hblocks
      refine ⟨block :: blocks, .cons hdelivers hblocks, ?_, ?_⟩
      · rw [List.append_assoc] at hitems'
        exact hitems'
      · rw [hentries, List.append_assoc] at htable
        exact htable

/-- Every write to a container is guarded, also one that is read from a record. So whatever calls are
made on a new array, in the end it has the values that were accepted, in order, and its table has the
mappings of the first item, then those of the second, and so on. -/
theorem writes_guarded (w : Workspace) :
    (∀ (p : Proxy) c, w.heap.get? p.backing = some c → ∀ key a, p.Guards key a c w) ∧
    (∀ record a heap, Assignment.ofJson w.heap record = .ok (a, heap) →
      (∀ origin, a.origin? = some origin ↔ record.NamesOrigin origin) ∧ w.heap.Grows heap ∧
      ∀ (p : Proxy) c, w.heap.get? p.backing = some c → ∀ key, p.Guards key a c { w with heap }) ∧
    ∀ source location sink calls,
      let (p, made) := fresh source location sink .emptyArray w
      let (answers, w') := attempt (Call.run p) calls made
      ∃ blocks, List.Forall₂ p.Delivers (accepted answers).zipIdx blocks ∧
        w'.heap.get? p.backing = some (.array ((accepted answers).map Assignment.value)) ∧
        w'.tableEntries p.sink.table = w.tableEntries p.sink.table ++ blocks.flatten := by
  refine ⟨fun p c hc key a => guards key a hc, fun record a heap hread => ?_,
    fun source location sink calls => ?_⟩
  · rcases Assignment.ofJson_cases w.heap record with ⟨e, he⟩ | ⟨a', heap', hok, hgrows, horigin⟩
    · cases he.symm.trans hread
    · cases hok.symm.trans hread
      exact ⟨horigin, hgrows, fun p c hc key => guards key _ (hgrows.get? hc)⟩
  · have hempty : (w.heap.alloc .emptyArray).2.get? w.heap.size = some (.array []) := by
      rw [Heap.get?_alloc, if_pos rfl]
      rfl
    exact appends_of_calls (p := ⟨w.heap.size, location, source, sink⟩)
      (w := { w with heap := (w.heap.alloc .emptyArray).2 }) hempty calls

/-- The record of a list that comes from the given place. -/
def listRecord (pointer : String) : Json :=
  .object [("value", .array [.bool true]), ("pointer", .string pointer), ("recurse", .bool true)]

/-- Calls of all kinds: three are accepted, one of them with a list. -/
def mixed : List Call :=
  let given : Assignment := .tagged { value := .string "a", origin := some .root }
  [⟨none, .assignment given⟩, ⟨some (.key "0"), .assignment given⟩, ⟨none, .record (listRecord "/x")⟩,
    ⟨none, .record (listRecord "x")⟩, ⟨some (.index 7), .assignment given⟩,
    ⟨none, .assignment (.bare .null)⟩, ⟨some (.key "2"), .assignment given⟩]

theorem writes_guarded_mixed :
    let (p, made) := fresh ⟨"d"⟩ ⟨[.key "list"]⟩ { table := 0 } .emptyArray { tables := #[{}] }
    let (answers, w') := attempt (Call.run p) mixed made
    answers.map Except.toBool = [true, false, true, false, false, false, true] ∧
    (w'.tableEntries 0).map (·.generated.tokens) =
      [["list", "0"], ["list", "1"], ["list", "1", "0"], ["list", "2"]] ∧
    (∃ items, w'.heap.get? p.backing = some (.array items) ∧
      items = (accepted answers).map Assignment.value ∧ ∀ key a, p.Guards key a (.array items) w') ∧
    ∃ a heap, Assignment.ofJson made.heap (listRecord "/x") = .ok (a, heap) ∧
      a.origin? = some ⟨[.key "x"]⟩ ∧ ∀ key, p.Guards key a .emptyArray { made with heap } := by
  have hcalls := (writes_guarded { tables := #[{}] }).2.2 ⟨"d"⟩ ⟨[.key "list"]⟩ { table := 0 } mixed
  obtain ⟨_, _, hitems, _⟩ := hcalls
  refine ⟨by decide +kernel, by decide +kernel, ⟨_, hitems, rfl, (writes_guarded _).1 _ _ hitems⟩, ?_⟩
  have hread : (Assignment.ofJson ⟨#[.emptyArray]⟩ (listRecord "/x")).toBool := by decide +kernel
  cases hof : Assignment.ofJson ⟨#[.emptyArray]⟩ (listRecord "/x") with
  | error e =>
    rw [hof] at hread
    cases hread
  | ok read =>
    obtain ⟨horigin, _, hguards⟩ :=
      (writes_guarded { heap := ⟨#[.emptyArray]⟩, tables := #[{}] }).2.1 _ read.1 read.2 hof
    refine ⟨read.1, read.2, hof, ?_, hguards _ _ rfl⟩
    exact (horigin _).mpr ⟨rfl, "/x", rfl, rfl⟩

end Proxy

end Lineage
