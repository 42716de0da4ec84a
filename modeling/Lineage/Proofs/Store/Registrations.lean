import Lineage.Proofs.Store.Documents

/-! What a store in memory remembers. Everything that can be done to it is put down in a log, newest
entry first. The tree of a document is the one that was put last, and its mapping table the one that
was retained last: neither takes the place of the other, so a document stays generated once a table was
retained for it, also when it is added again. -/

namespace Lineage

/-- What can be done to a store in memory. -/
inductive Registration where
  | add (id : SourceId) (tree : Tree)
  | write (id : SourceId) (tree : Tree)
  | retain (id : SourceId) (mappings : List Mapping)
deriving DecidableEq

namespace Registration

def source : Registration → SourceId
  | add id _ | write id _ | retain id _ => id

/-- The tree that is put under a name. -/
def tree? (id : SourceId) : Registration → Option Tree
  | add other t | write other t => if other = id then some t else none
  | retain _ _ => none

/-- The mapping table that is retained for a name. -/
def table? (id : SourceId) : Registration → Option (List Mapping)
  | add _ _ | write _ _ => none
  | retain other ms => if other = id then some ms else none

theorem table?_eq_some_iff {id : SourceId} {r : Registration} {ms : List Mapping} :
    r.table? id = some ms ↔ r = retain id ms := by
  cases r <;> simp [table?]

end Registration

namespace MemoryStore

def register (s : MemoryStore) : Registration → MemoryStore
  | .add id t | .write id t => s.putTree id t
  | .retain id ms => s.putMappings id ms

/-- Does what a log says, its oldest entry first. -/
def replay (s : MemoryStore) (log : List Registration) : MemoryStore :=
  log.foldr (fun r s => s.register r) s

variable (s : MemoryStore) (r : Registration) (id : SourceId) (log : List Registration)

@[simp] theorem replay_cons : s.replay (r :: log) = (s.replay log).register r := rfl

theorem replay_append (newer : List Registration) :
    s.replay (newer ++ log) = (s.replay log).replay newer := List.foldr_append

theorem mappings_putTree (t : Tree) (other : SourceId) :
    (s.putTree id t).mappings other = s.mappings other :=
  congrFun (putsTrees s _ id t rfl).2 other

theorem tree?_putTree (t : Tree) (other : SourceId) :
    (s.putTree id t).tree? other = if other = id then some t else s.tree? other :=
  (putsTrees s _ id t rfl).1 other

theorem mappings_putMappings (ms : List Mapping) (other : SourceId) :
    (s.putMappings id ms).mappings other = if id = other then some ms else s.mappings other := by
  rw [mappings, putMappings, document?_update]
  split <;> rfl

theorem tree?_putMappings (ms : List Mapping) (other : SourceId) :
    (s.putMappings id ms).tree? other = s.tree? other := by
  rw [tree?, putMappings, document?_update]
  by_cases hid : id = other
  · subst hid
    rw [if_pos rfl, tree?]
    cases s.document? id <;> rfl
  · rw [if_neg hid]
    rfl

theorem contains_update (f : Document → Document) (other : SourceId) :
    (s.update id f).contains other = (decide (id = other) || s.contains other) := by
  show ((s.update id f).document? other).isSome = _
  rw [document?_update]
  by_cases hid : id = other <;> simp [hid, contains, OrderedMap.contains, document?]

theorem mappings_register : (s.register r).mappings id = (r.table? id).or (s.mappings id) := by
  cases r with
  | add other t | write other t => exact s.mappings_putTree other t id
  | retain other ms =>
    rw [register, mappings_putMappings, Registration.table?]
    split <;> rfl

theorem tree?_register : (s.register r).tree? id = (r.tree? id).or (s.tree? id) := by
  cases r with
  | add other t | write other t =>
    rw [register, tree?_putTree, Registration.tree?]
    by_cases hid : id = other
    · simp [hid]
    · simp [hid, Ne.symm hid]
  | retain other ms => exact s.tree?_putMappings other ms id

theorem contains_register :
    (s.register r).contains id = (decide (r.source = id) || s.contains id) := by
  cases r <;> exact contains_update s _ _ id

/-- A document has the mapping table that was retained for it last. -/
theorem mappings_replay :
    (s.replay log).mappings id = (log.findSome? (·.table? id)).or (s.mappings id) := by
  induction log with
  | nil => rfl
  | cons r log ih =>
    rw [replay_cons, mappings_register, ih, List.findSome?_cons]
    cases r.table? id <;> rfl

/-- A document has the tree that was put under its name last. -/
theorem tree?_replay : (s.replay log).tree? id = (log.findSome? (·.tree? id)).or (s.tree? id) := by
  induction log with
  | nil => rfl
  | cons r log ih =>
    rw [replay_cons, tree?_register, ih, List.findSome?_cons]
    cases r.tree? id <;> rfl

theorem contains_replay :
    (s.replay log).contains id = true ↔ (∃ r ∈ log, r.source = id) ∨ s.contains id = true := by
  induction log with
  | nil => simp [replay]
  | cons r log ih =>
    rw [replay_cons, contains_register, Bool.or_eq_true, ih, decide_eq_true_eq]
    simp only [List.mem_cons, exists_eq_or_imp, or_assoc]

end MemoryStore

/-- The store answers by what was done to it, newest first. -/
structure MemoryStore.AnswersBy (s : MemoryStore) (log : List Registration) : Prop where
  tree : ∀ id, s.tree? id = log.findSome? (·.tree? id)
  mappings : ∀ id, s.mappings id = log.findSome? (·.table? id)
  /-- A document is generated when a table was ever retained for it. -/
  generated : ∀ id, s.isGenerated id = true ↔ ∃ ms, .retain id ms ∈ log
  /-- What lies behind a position is up to the table that was retained last. -/
  behind : ∀ (p : Position) (ms : List Mapping), log.findSome? (·.table? p.source) = some ms →
    s.behind p = .ok (positionsBehind ms p.pointer)
  authored : ∀ p : Position, (∃ r ∈ log, r.source = p.source) → (∀ ms, .retain p.source ms ∉ log) →
    s.behind p = .ok []
  unknown : ∀ p : Position, (∀ r ∈ log, r.source ≠ p.source) →
    s.behind p = .error (.documentNotFound p.source)

theorem MemoryStore.answersBy_replay (log : List Registration) :
    (MemoryStore.replay {} log).AnswersBy log := by
  have hmappings : ∀ id, (replay {} log).mappings id = log.findSome? (·.table? id) := fun id =>
    (mappings_replay {} id log).trans (Option.or_none)
  have hgenerated : ∀ id, (replay {} log).isGenerated id = true ↔ ∃ ms, .retain id ms ∈ log := by
    intro id
    rw [isGenerated, hmappings, List.findSome?_isSome_iff]
    simp only [Option.isSome_iff_exists, Registration.table?_eq_some_iff]
    constructor
    · rintro ⟨_, hr, ms, rfl⟩
      exact ⟨ms, hr⟩
    · rintro ⟨ms, hr⟩
      exact ⟨_, hr, ms, rfl⟩
  have hcontains : ∀ id, (replay {} log).contains id = true ↔ ∃ r ∈ log, r.source = id := by
    intro id
    rw [contains_replay]
    exact or_iff_left Bool.false_ne_true
  refine ⟨fun id => (tree?_replay {} id log).trans Option.or_none, hmappings, hgenerated, ?_, ?_, ?_⟩
  · intro p ms hms
    exact behind_of_mappings ((hmappings _).trans hms)
  · intro p hp hnone
    refine behind_of_authored ((hcontains _).mpr hp) ?_
    rw [← Bool.not_eq_true, hgenerated]
    rintro ⟨ms, hms⟩
    exact hnone ms hms
  · intro p hp
    have hno : (replay {} log).contains p.source = false := by
      rw [← Bool.not_eq_true, hcontains]
      rintro ⟨r, hr, hsource⟩
      exact hp r hr hsource
    have hdocument : (replay {} log).document? p.source = none :=
      Option.not_isSome_iff_eq_none.mp (by rw [← Bool.not_eq_true] at hno; exact hno)
    simp only [MemoryStore.behind, hdocument]

end Lineage
