import Lineage.Proofs.Output.Attempts
import Lineage.Proofs.Provenance.Spelling

/-! Guarded writes and the spelling of segments. Whichever way the key of a write and the pointer of its
origin are spelled, it is refused for the same reason or it puts the same value in the same place, and
what it records differs in spelling alone. With that, the spelling of a pointer is immaterial to all that
reads, compares, traces or writes by it.
-/

namespace Lineage

open BlameTree

/-- The errors are the same up to the spelling of their pointers. -/
inductive WriteError.Alike : WriteError → WriteError → Prop
  | directAssignment {p q : Pointer} (h : Same p q) : Alike (.directAssignment p) (.directAssignment q)
  | missingPointer {p q : Pointer} (h : Same p q) : Alike (.missingPointer p) (.missingPointer q)
  | duplicateWrite {p q : Pointer} (h : Same p q) : Alike (.duplicateWrite p) (.duplicateWrite q)
  | indexOutOfBounds {p q : Pointer} {index length : Nat} (h : Same p q) :
    Alike (.indexOutOfBounds p index length) (.indexOutOfBounds q index length)
  | invalidKey {p q : Pointer} {key : String} (h : Same p q) : Alike (.invalidKey p key) (.invalidKey q key)
  | notAContainer : Alike .notAContainer .notAContainer
  | sealed {p q : Pointer} (h : Same p q) : Alike (.sealed p) (.sealed q)

/-- The assignments differ at most in the spelling of the origin. -/
inductive Assignment.Alike : Assignment → Assignment → Prop
  | bare {value : Tree} : Alike (.bare value) (.bare value)
  | tagged {write : TaggedWrite} {o o' : Option Pointer} (ho : Option.Rel Same o o') :
    Alike (.tagged { write with origin := o }) (.tagged { write with origin := o' })

structure MappingTable.Alike (t t' : MappingTable) : Prop where
  entries : List.Forall₂ Mapping.Alike t.entries t'.entries
  isSealed : t.isSealed = t'.isSealed

/-- The containers and traversals are the same, and so are the tables up to spelling. -/
structure Workspace.Alike (w w' : Workspace) : Prop where
  heap : w.heap = w'.heap
  traversals : w.traversals = w'.traversals
  tables : ∀ id, Option.Rel MappingTable.Alike (w.table? id) (w'.table? id)

/-- The writes are refused alike or accepted alike, and leave alike workspaces behind. -/
def WriteAlike (r r' : EStateM.Result WriteError Workspace Unit) : Prop :=
  Agree WriteError.Alike Eq (outcome r) (outcome r') ∧ (after r).Alike (after r')

theorem Mapping.alike_refl (m : Mapping) : m.Alike m :=
  ⟨Pointer.same_refl _, Pointer.same_refl _, rfl, rfl, rfl⟩

theorem Assignment.alike_refl (a : Assignment) : a.Alike a := by
  cases a with
  | bare v => exact .bare
  | tagged write =>
    have horigin : Option.Rel Same write.origin write.origin := by
      cases write.origin with
      | none => exact .none
      | some o => exact .some (Pointer.same_refl o)
    exact @Alike.tagged write _ _ horigin

namespace Workspace

variable {w : Workspace} {ms ms' : List Mapping}

theorem alike_recordAll (w : Workspace) (id : TableId) (h : List.Forall₂ Mapping.Alike ms ms') :
    (w.recordAll id ms).Alike (w.recordAll id ms') := by
  refine ⟨rfl, rfl, fun other => ?_⟩
  have hold (t : MappingTable) : List.Forall₂ Mapping.Alike t.entries t.entries :=
    List.forall₂_same.mpr fun m _ => m.alike_refl
  by_cases hid : id = other
  · subst hid
    rw [table?_recordAll, table?_recordAll]
    cases w.table? id with
    | none => exact .none
    | some t => exact .some ⟨List.rel_append (hold t) h, rfl⟩
  · rw [table?_recordAll_of_ne hid, table?_recordAll_of_ne hid]
    cases w.table? other with
    | none => exact .none
    | some t => exact .some ⟨hold t, rfl⟩

theorem alike_refl (w : Workspace) : w.Alike w := by
  have h := alike_recordAll w 0 (.nil : List.Forall₂ Mapping.Alike [] [])
  rwa [recordAll_nil] at h

end Workspace

theorem Segment.asIndex_congr {k k' : Segment} (hk : Same k k') : k.asIndex = k'.asIndex := by
  rw [asIndex_eq_readIndex?, asIndex_eq_readIndex?, same_iff.mp hk]

theorem Container.add?_congr (c : Container) {k k' : Segment} (hk : Same k k') (v : Tree) :
    c.add? k v = c.add? k' v := by
  cases c with
  | object members => simp only [add?, Segment.same_iff.mp hk]
  | array items => simp only [add?, Segment.asIndex_congr hk]

namespace Proxy

variable {k k' : Segment}

/-- There is no room under either spelling of a key, for the same reason, or there is room under both. -/
theorem insertAt_alike (x : Proxy) (hk : Same k k') {g g' : Pointer} (hg : Same g g') (v : Tree)
    (w : Workspace) :
    (∃ e e', x.insertAt k g v w = .error e w ∧ x.insertAt k' g' v w = .error e' w ∧ e.Alike e') ∨
    ∃ c c', w.heap.get? x.backing = some c ∧ c.add? k v = some c' := by
  have htoken : k'.token = k.token := (Segment.same_iff.mp hk).symm
  have hindex : k'.asIndex = k.asIndex := (Segment.asIndex_congr hk).symm
  have hhere := Pointer.same_refl x.location
  unfold insertAt
  rw [get_bind, get_bind, htoken, hindex]
  cases hc : w.heap.get? x.backing with
  | none => exact .inl ⟨_, _, rfl, rfl, .notAContainer⟩
  | some c =>
    cases c with
    | object members =>
      by_cases hmem : members.contains k.token
      · exact .inl ⟨_, _, by simp only [hmem]; rfl, by simp only [hmem]; rfl, .duplicateWrite hg⟩
      · exact .inr ⟨_, _, rfl, if_neg hmem⟩
    | array items =>
      cases hi : k.asIndex with
      | none => exact .inl ⟨_, _, rfl, rfl, .invalidKey hhere⟩
      | some i =>
        rcases Nat.lt_trichotomy i items.length with h | rfl | h
        · exact .inl ⟨_, _, by simp only [if_pos h]; rfl, by simp only [if_pos h]; rfl,
            .duplicateWrite hg⟩
        · exact .inr ⟨_, _, rfl, if_pos hi⟩
        · have hpast : ¬ i < items.length := Nat.not_lt_of_gt h
          exact .inl ⟨_, _, by simp only [if_neg hpast, gt_iff_lt, if_pos h]; rfl,
            by simp only [if_neg hpast, gt_iff_lt, if_pos h]; rfl, .indexOutOfBounds hhere⟩

theorem alike_topMapping (x : Proxy) (hk : Same k k') {o o' : Pointer} (ho : Same o o')
    (write : TaggedWrite) (given given' : Option Pointer) :
    (x.topMapping k { write with origin := given } o).Alike
      (x.topMapping k' { write with origin := given' } o') :=
  ⟨Pointer.same_append (Pointer.same_refl _) hk, ho, rfl, rfl, rfl⟩

theorem alike_leafMapping {m n : Mapping} (h : m.Alike n) (leaf : Node) :
    (leafMapping m leaf).Alike (leafMapping n leaf) :=
  ⟨Pointer.same_join h.generated (Pointer.same_refl _), Pointer.same_join h.origin (Pointer.same_refl _),
    h.source, h.auxiliary, rfl⟩

theorem alike_mappingsOf (x : Proxy) (hk : Same k k') {o o' : Pointer} (ho : Same o o')
    (write : TaggedWrite) (given given' : Option Pointer) (h : Heap) :
    List.Forall₂ Mapping.Alike (x.mappingsOf k { write with origin := given } o h)
      (x.mappingsOf k' { write with origin := given' } o' h) := by
  have htop := x.alike_topMapping hk ho write given given'
  refine .cons htop ?_
  split
  · rw [List.forall₂_map_left_iff, List.forall₂_map_right_iff]
    exact List.forall₂_same.mpr fun leaf _ => alike_leafMapping htop leaf
  · exact .nil

theorem writeAlike_of_error {r r' : EStateM.Result WriteError Workspace Unit} {e e' : WriteError}
    {w : Workspace} (hr : r = .error e w) (hr' : r' = .error e' w) (he : e.Alike e') :
    WriteAlike r r' := by
  rw [hr, hr']
  exact ⟨he, w.alike_refl⟩

/-- A write goes by the tokens of its key and of its origin. -/
theorem put_alike (x : Proxy) (hk : Same k k') {a b : Assignment} (ha : a.Alike b) (w : Workspace) :
    WriteAlike (x.put k a w) (x.put k' b w) := by
  have hplace : Same (x.location.append k) (x.location.append k') :=
    Pointer.same_append (Pointer.same_refl _) hk
  cases ha with
  | bare => exact writeAlike_of_error rfl rfl (.directAssignment hplace)
  | @tagged write given given' ho =>
    cases ho with
    | none => exact writeAlike_of_error rfl rfl (.missingPointer hplace)
    | @some o o' ho =>
      cases hopen : w.accepts x.sink with
      | false =>
        refine writeAlike_of_error (w := w) ?_ ?_ (.sealed hplace) <;>
        · simp only [put, get_bind, hopen]
          rfl
      | true =>
        rcases x.insertAt_alike hk hplace write.value w with ⟨e, e', he, he', halike⟩ | ⟨c, c', hc, hadd⟩
        · refine writeAlike_of_error (w := w) ?_ ?_ halike <;>
          · simp only [put, get_bind, hopen, Bool.not_true, Bool.false_eq_true, if_false]
            exact bind_of_error ‹_›
        · have hadd' : c.add? k' write.value = some c' := by rwa [← c.add?_congr hk]
          have hput : x.put k (.tagged { write with origin := some o }) w = _ :=
            x.put_of_add? rfl hopen hc hadd
          have hput' : x.put k' (.tagged { write with origin := some o' }) w = _ :=
            x.put_of_add? rfl hopen hc hadd'
          rw [WriteAlike, hput, hput']
          exact ⟨rfl, Workspace.alike_recordAll _ _ (x.alike_mappingsOf hk ho write _ _ _)⟩

end Proxy

/-- Neither one of two pointers nor one of two segments is told from the other, whatever is done with
them: looking up, reading mappings, comparing pointers, tracing blame, or writing. -/
structure Interchangeable (p q : Pointer) (k k' : Segment) : Prop where
  member (h : Heap) (t : Tree) : h.member? t k = h.member? t k'
  resolve (h : Heap) (t : Tree) : h.resolve? t p = h.resolve? t q
  behind (ms : List Mapping) : List.Forall₂ Same (positionsBehind ms p) (positionsBehind ms q)
  startsWith (r : Pointer) : p.startsWith r = q.startsWith r ∧ r.startsWith p = r.startsWith q
  below (r : Pointer) : Option.Rel Same (p.below? r) (q.below? r) ∧
    Option.Rel Same (r.below? p) (r.below? q)
  append : Same (p.append k) (q.append k')
  join (r : Pointer) : Same (p.join r) (q.join r) ∧ Same (r.join p) (r.join q)
  trace (s : MemoryStore) (config : BlameConfig) (source : SourceId) (auxiliary : Option String) :
    Agree BlameError.Alike BlameTree.Alike (trace s.behind config ⟨source, p, auxiliary⟩)
      (trace s.behind config ⟨source, q, auxiliary⟩)
  /-- The same of any other store that goes by the tokens of what it is asked for. -/
  traceAny (lookup : Lookup) (hlookup : lookup.IgnoresSpelling) (config : BlameConfig)
    (source : SourceId) (auxiliary : Option String) :
    Agree BlameError.Alike BlameTree.Alike (BlameTree.trace lookup config ⟨source, p, auxiliary⟩)
      (BlameTree.trace lookup config ⟨source, q, auxiliary⟩)
  put (x : Proxy) (a : Assignment) (w : Workspace) : WriteAlike (x.put k a w) (x.put k' a w)
  putFrom (x : Proxy) (write : TaggedWrite) (w : Workspace) :
    WriteAlike (x.put k (.tagged { write with origin := some p }) w)
      (x.put k' (.tagged { write with origin := some q }) w)

/-- How a segment is spelled never matters. -/
theorem spelling_immaterial {p q : Pointer} {k k' : Segment} (hp : Same p q) (hk : Same k k') :
    Interchangeable p q k k' := by
  have htrace (lookup : Lookup) (hlookup : lookup.IgnoresSpelling) (config : BlameConfig)
      (source : SourceId) (auxiliary : Option String) :
      Agree BlameError.Alike BlameTree.Alike (trace lookup config ⟨source, p, auxiliary⟩)
        (trace lookup config ⟨source, q, auxiliary⟩) :=
    resolve_congr hlookup .nil (Position.same_iff.mpr ⟨rfl, hp, rfl⟩)
  exact
    { member h t := h.member?_congr t (Segment.same_iff.mp hk)
      resolve h t := h.follow?_congr t (Pointer.same_iff.mp hp)
      behind ms := positionsBehind_congr ms hp
      startsWith r := ⟨Pointer.startsWith_congr hp r.same_refl, Pointer.startsWith_congr r.same_refl hp⟩
      below r := ⟨Pointer.below?_congr hp r.same_refl, Pointer.below?_congr r.same_refl hp⟩
      append := Pointer.same_append hp hk
      join r := ⟨Pointer.same_join hp r.same_refl, Pointer.same_join r.same_refl hp⟩
      trace s := htrace s.behind s.ignoresSpelling
      traceAny := htrace
      put x a w := x.put_alike hk a.alike_refl w
      putFrom x write w := x.put_alike hk (.tagged (.some hp)) w }

/-- The way into a list as it is parsed, and as it is spelled by a walk through members. -/
theorem spelling_immaterial_five :
    (⟨[.index 5]⟩ : Pointer) ≠ ⟨[.key "5"]⟩ ∧
      Interchangeable ⟨[.index 5]⟩ ⟨[.key "5"]⟩ (.index 12) (.key "12") :=
  ⟨by decide +kernel, spelling_immaterial (Pointer.same_iff.mpr (by decide +kernel))
    (Segment.same_iff.mpr (by decide +kernel))⟩

end Lineage
