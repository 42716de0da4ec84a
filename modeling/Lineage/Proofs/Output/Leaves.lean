import Lineage.Proofs.Output.Put
import Lineage.Proofs.Traversal.Leaves

/-! The mappings of one accepted write. They speak of the written place and of leaves below it, no
two of them of one place, and each of a place that is there once the value is. -/

namespace Lineage

namespace Proxy

variable (p : Proxy) (key : Segment) (write : TaggedWrite) (origin : Pointer) (h : Heap)

@[simp] theorem tokens_topMapping :
    (p.topMapping key write origin).generated.tokens = p.location.tokens ++ [key.token] :=
  Pointer.tokens_append _ _

@[simp] theorem tokens_leafMapping (top : Mapping) (leaf : Node) :
    (leafMapping top leaf).generated.tokens = top.generated.tokens ++ leaf.pointer.tokens :=
  Pointer.tokens_join _ _

/-- A mapping of a write is that of the place, or that of a leaf of a container. -/
theorem mem_mappingsOf {m : Mapping} (hm : m ∈ p.mappingsOf key write origin h) :
    m = p.topMapping key write origin ∨
    ∃ id, write.recurse = true ∧ write.value = .container id ∧
      ∃ leaf ∈ h.descendants (.container id),
        m = leafMapping (p.topMapping key write origin) leaf := by
  rcases List.mem_cons.mp hm with rfl | hm
  · exact .inl rfl
  · split at hm
    · rename_i hr
      rw [Bool.and_eq_true] at hr
      obtain ⟨leaf, hleaf, rfl⟩ := List.mem_map.mp hm
      cases hv : write.value with
      | container id =>
        rw [hv, h.leaves_eq] at hleaf
        exact .inr ⟨id, hr.1, rfl, leaf, (List.mem_filter.mp hleaf).1, rfl⟩
      | _ => rw [hv] at hr; cases hr.2
    · cases hm

/-- The place comes first. -/
theorem topMapping_mem_mappingsOf :
    p.topMapping key write origin ∈ p.mappingsOf key write origin h := List.mem_cons_self

theorem mappingsOf_of_not_recurse (hr : write.recurse = false) :
    p.mappingsOf key write origin h = [p.topMapping key write origin] := by
  simp [mappingsOf, hr]

theorem exists_rest_of_mem_mappingsOf {m : Mapping} (hm : m ∈ p.mappingsOf key write origin h) :
    ∃ rest, m.generated.tokens = p.location.tokens ++ key.token :: rest := by
  rcases p.mem_mappingsOf key write origin h hm with rfl | ⟨id, _, _, leaf, _, rfl⟩
  · exact ⟨[], by simp⟩
  · exact ⟨leaf.pointer.tokens, by simp⟩

/-- No two mappings of a write speak of one place. -/
theorem pairwise_mappingsOf : (p.mappingsOf key write origin h).Pairwise
    fun m n => m.generated.tokens ≠ n.generated.tokens := by
  unfold mappingsOf
  split
  · rename_i hr
    cases hv : write.value with
    | container id =>
      rw [h.leaves_eq]
      refine List.pairwise_cons.mpr ⟨fun m hm => ?_, ?_⟩
      · obtain ⟨leaf, hleaf, rfl⟩ := List.mem_map.mp hm
        have hne := h.tokens_ne_nil_of_mem_descendants id (List.mem_filter.mp hleaf).1
        simp [hne]
      · rw [List.pairwise_map]
        refine ((h.pairwise_pointers_descendants id).filter _).imp fun hne => ?_
        simpa using hne
    | _ => rw [hv] at hr; simp [Tree.isComposite, Tree.id?] at hr
  · exact List.pairwise_singleton _ _

/-- Every mapping of a write speaks of a place that the output has. -/
theorem resolve?_of_mem_mappingsOf (hi : h.Indexable) {root : Tree}
    (hroot : h.follow? root (p.location.tokens.map .key) = some p.tree)
    (hmem : h.member? p.tree key = some write.value) {m : Mapping}
    (hm : m ∈ p.mappingsOf key write origin h) : (h.resolve? root m.generated).isSome := by
  have hlocation : h.follow? root p.location.segments = some p.tree := by
    rw [← hroot]
    exact h.follow?_congr root (by simp [Pointer.tokens])
  have hplace : h.follow? root (p.location.append key).segments = some write.value := by
    rw [Pointer.append, Heap.follow?_append, hlocation]
    simp [Heap.follow?, hmem]
  rcases p.mem_mappingsOf key write origin h hm with rfl | ⟨id, _, hv, leaf, hleaf, rfl⟩
  · exact Option.isSome_iff_exists.mpr ⟨_, hplace⟩
  · refine Option.isSome_iff_exists.mpr ⟨leaf.value, ?_⟩
    have hbelow := h.resolve?_of_mem_descendants id hi hleaf
    change h.follow? root ((p.location.append key).segments ++ leaf.pointer.segments) = _
    rw [Heap.follow?_append, hplace, Option.bind_some, hv]
    exact hbelow

end Proxy

end Lineage
