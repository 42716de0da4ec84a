import Lineage.Proofs.Provenance.Ancestors
import Lineage.Blame.Basic

/-! The leaves of a blame tree. The walk over a tree finds every childless node, up to locators, and
nothing else; it has steps enough, since each takes one node off the stack. -/

namespace Lineage

namespace BlameTree

/-- The tree has a childless node at the position. -/
inductive Leaf : BlameTree → Position → Prop
  | here {p : Position} : Leaf (mk p []) p
  | under {p q : Position} {ts : List BlameTree} {t : BlameTree} (ht : t ∈ ts) (hl : Leaf t p) :
      Leaf (mk q ts) p

theorem Leaf.cases_mk {p q : Position} {ts : List BlameTree} (h : Leaf (mk q ts) p) :
    ts = [] ∧ p = q ∨ ∃ t ∈ ts, Leaf t p := by
  cases h with
  | here => exact .inl ⟨rfl, rfl⟩
  | under ht hl => exact .inr ⟨_, ht, hl⟩

theorem sizes_append (ts us : List BlameTree) : sizes (ts ++ us) = sizes ts + sizes us := by
  induction ts with
  | nil => simp [sizes]
  | cons t rest ih => rw [List.cons_append, sizes, sizes, ih, Nat.add_assoc]

theorem size_eq (t : BlameTree) : t.size = sizes t.blaming + 1 := by
  cases t
  rfl

theorem leaf_iff_of_isLeaf {t : BlameTree} {p : Position} (h : t.isLeaf = true) :
    t.Leaf p ↔ p = t.node := by
  obtain ⟨q, ts⟩ := t
  cases List.isEmpty_iff.mp h
  constructor
  · intro hl
    rcases hl.cases_mk with ⟨_, rfl⟩ | ⟨t, ht, _⟩
    · rfl
    · cases ht
  · rintro rfl
    exact .here

theorem leaf_iff_of_not_isLeaf {t : BlameTree} {p : Position} (h : t.isLeaf = false) :
    t.Leaf p ↔ ∃ c ∈ t.blaming, c.Leaf p := by
  obtain ⟨q, ts⟩ := t
  constructor
  · intro hl
    rcases hl.cases_mk with ⟨rfl, _⟩ | hc
    · cases h
    · exact hc
  · rintro ⟨c, hc, hl⟩
    exact .under hc hl

variable {p : Position} {steps : Nat} {stack : List BlameTree} {found : List Position}

theorem mem_collectLeaves_of_mem (h : p ∈ found) : p ∈ collectLeaves steps stack found := by
  induction steps generalizing stack found with
  | zero => exact h
  | succ steps ih =>
    cases stack with
    | nil => exact h
    | cons t stack =>
      unfold collectLeaves
      split
      · refine ih ?_
        split
        · exact h
        · exact List.mem_append_left _ h
      · exact ih h

/-- What the walk adds are leaves of the stack. -/
theorem leaf_of_mem_collectLeaves (h : p ∈ collectLeaves steps stack found) :
    p ∈ found ∨ ∃ t ∈ stack, t.Leaf p := by
  induction steps generalizing stack found with
  | zero => exact .inl h
  | succ steps ih =>
    cases stack with
    | nil => exact .inl h
    | cons t stack =>
      unfold collectLeaves at h
      split at h
      · rename_i hleaf
        rcases ih h with hp | ⟨u, hu, hl⟩
        · split at hp
          · exact .inl hp
          · rcases List.mem_append.mp hp with hp | hp
            · exact .inl hp
            · exact .inr ⟨t, by simp, (leaf_iff_of_isLeaf hleaf).mpr (List.mem_singleton.mp hp)⟩
        · exact .inr ⟨u, List.mem_cons_of_mem _ hu, hl⟩
      · rename_i hinner
        rcases ih h with hp | ⟨u, hu, hl⟩
        · exact .inl hp
        · rcases List.mem_append.mp hu with hu | hu
          · refine .inr ⟨t, by simp, ?_⟩
            exact (leaf_iff_of_not_isLeaf (Bool.eq_false_iff.mpr hinner)).mpr ⟨u, hu, hl⟩
          · exact .inr ⟨u, List.mem_cons_of_mem _ hu, hl⟩

/-- A walk with a step for every node of the stack finds all leaves. -/
theorem exists_mem_collectLeaves {t : BlameTree} (ht : t ∈ stack) (hl : t.Leaf p)
    (hs : sizes stack < steps) : ∃ q ∈ collectLeaves steps stack found, p.samePlace q = true := by
  induction steps generalizing stack found t with
  | zero => exact absurd hs (Nat.not_lt_zero _)
  | succ steps ih =>
    cases stack with
    | nil => cases ht
    | cons u stack =>
      rw [sizes, size_eq] at hs
      unfold collectLeaves
      split
      · rename_i hleaf
        rcases List.mem_cons.mp ht with rfl | ht
        · -- the leaf is on top: it has been found before or is found now
          obtain rfl := (leaf_iff_of_isLeaf hleaf).mp hl
          by_cases hseen : found.any (t.node.samePlace ·) = true
          · obtain ⟨q, hq, hsame⟩ := List.any_eq_true.mp hseen
            rw [if_pos hseen]
            exact ⟨q, mem_collectLeaves_of_mem hq, hsame⟩
          · rw [if_neg hseen]
            exact ⟨t.node, mem_collectLeaves_of_mem (by simp), Position.samePlace_refl _⟩
        · exact ih ht hl (by omega)
      · rename_i hinner
        have hsizes : sizes (u.blaming ++ stack) < steps := by
          rw [sizes_append]
          omega
        rcases List.mem_cons.mp ht with rfl | ht
        · obtain ⟨c, hc, hl⟩ := (leaf_iff_of_not_isLeaf (Bool.eq_false_iff.mpr hinner)).mp hl
          exact ih (List.mem_append_left _ hc) hl hsizes
        · exact ih (List.mem_append_right _ ht) hl hsizes

theorem leaf_of_mem_leaves {t : BlameTree} (h : p ∈ t.leaves) : t.Leaf p := by
  rcases leaf_of_mem_collectLeaves h with hp | ⟨u, hu, hl⟩
  · cases hp
  · rwa [← List.mem_singleton.mp hu]

theorem Leaf.exists_mem_leaves {t : BlameTree} (h : t.Leaf p) :
    ∃ q ∈ t.leaves, p.samePlace q = true :=
  exists_mem_collectLeaves List.mem_cons_self h (Nat.lt_succ_self t.size)

end BlameTree

end Lineage
