import Lineage.Store.Memory

/-! What a store holds: a tree and a mapping table for every document that has one. -/

namespace Lineage

variable {σ : Type}

/-- Putting a tree changes the tree of that document, and nothing else that the store holds. -/
def DocumentStore.PutsTrees (store : DocumentStore σ) (tree : σ → SourceId → Option Tree)
    (table : σ → SourceId → Option (List Mapping)) : Prop :=
  ∀ s s' id t, store.putTree s id t = .ok s' →
    (∀ other, tree s' other = if other = id then some t else tree s other) ∧ table s' = table s

namespace MemoryStore

def tree? (s : MemoryStore) (id : SourceId) : Option Tree := (s.document? id).bind (·.tree)

variable {s : MemoryStore} {id : SourceId}

theorem contains_iff : s.contains id = true ↔ ∃ d, s.document? id = some d :=
  Option.isSome_iff_exists

theorem contains_of_tree? {t : Tree} (ht : s.tree? id = some t) : s.contains id = true := by
  obtain ⟨d, hd, _⟩ := Option.bind_eq_some_iff.mp ht
  exact contains_iff.mpr ⟨d, hd⟩

theorem getTree_eq_ok_iff {t : Tree} : s.getTree id = .ok t ↔ s.tree? id = some t := by
  unfold getTree
  rw [← tree?]
  cases s.tree? id <;> simp

theorem isGenerated_iff : s.isGenerated id = true ↔ ∃ ms, s.mappings id = some ms :=
  Option.isSome_iff_exists

theorem contains_of_isGenerated (hg : s.isGenerated id = true) : s.contains id = true := by
  obtain ⟨ms, hms⟩ := isGenerated_iff.mp hg
  obtain ⟨d, hd, _⟩ := Option.bind_eq_some_iff.mp hms
  exact contains_iff.mpr ⟨d, hd⟩

/-- Nothing lies behind an authored document. -/
theorem behind_of_authored {p : Position} (hc : s.contains p.source = true)
    (ha : s.isGenerated p.source = false) : s.behind p = .ok [] := by
  obtain ⟨d, hd⟩ := contains_iff.mp hc
  have hmappings : d.mappings = none := by simpa [isGenerated, mappings, hd] using ha
  simp only [behind, hd, hmappings]
  rfl

/-- What lies behind a generated document is up to its mappings. -/
theorem behind_of_mappings {p : Position} {ms : List Mapping} (hms : s.mappings p.source = some ms) :
    s.behind p = .ok (positionsBehind ms p.pointer) := by
  obtain ⟨d, hd, hmappings⟩ := Option.bind_eq_some_iff.mp hms
  simp only [behind, hd, hmappings]
  rfl

theorem document?_update (s : MemoryStore) (id other : SourceId) (f : Document → Document) :
    (s.update id f).document? other =
      if id = other then some (f ((s.document? id).getD {})) else s.document? other :=
  OrderedMap.get?_insert _ _ _ _

theorem putsTrees : store.PutsTrees tree? mappings := by
  intro s s' id t h
  cases h
  refine ⟨fun other => ?_, funext fun other => ?_⟩
  · rw [tree?, putTree, document?_update]
    by_cases hid : id = other
    · rw [if_pos hid, if_pos hid.symm]
      rfl
    · rw [if_neg hid, if_neg (Ne.symm hid)]
      rfl
  · rw [mappings, putTree, document?_update]
    by_cases hid : id = other
    · subst hid
      rw [if_pos rfl, mappings]
      cases s.document? id <;> rfl
    · rw [if_neg hid]
      rfl

end MemoryStore

end Lineage
