import Lineage.Proofs.Traversal.Listing

/-! The leaves of a traversal. The loop that yields childless nodes alone opens no level for them, and
still it enters the same containers at the same positions as the loop that yields every node, so that its
nodes are the childless ones among all. -/

namespace Lineage

namespace Heap

variable {h : Heap} {e : Entrances} {stack : List Cursor} {nodes : List Node}

/-- Nothing is yielded from the members of a childless node. -/
theorem next?_children_of_isChildless {n : Node} (hn : h.isChildless n = true) (e : Entrances) :
    (h.children n).next? e = none := by
  unfold children
  cases hexposed : n.exposed with
  | false => rfl
  | true =>
    have hlength : (h.entries n.value).length = 0 := by
      simpa [isChildless, hexposed, h.length_entries] using hn
    rw [if_pos rfl, List.eq_nil_of_length_eq_zero hlength]
    rfl

/-- With steps for all nodes, the childless ones among them are yielded. -/
theorem Drains.drainLeaves_eq (hd : h.Drains stack e nodes) {steps : Nat}
    (hsteps : 2 * nodes.length + stack.length ≤ steps) :
    h.drainLeaves steps stack e = nodes.filter h.isChildless := by
  induction hd generalizing steps with
  | nil => cases steps <;> rfl
  | close hend _ ih =>
    rw [List.length_cons] at hsteps
    obtain ⟨steps, rfl⟩ : ∃ k, steps = k + 1 := Nat.exists_eq_succ_of_ne_zero (by omega)
    simp only [drainLeaves, hend]
    exact ih (by omega)
  | @yield top top' stack e e' n nodes hnext _ ih =>
    simp only [List.length_cons] at hsteps
    obtain ⟨steps, rfl⟩ : ∃ k, steps = k + 1 := Nat.exists_eq_succ_of_ne_zero (by omega)
    have hrest : ∀ k, steps ≤ k → h.drainLeaves k (h.children n :: top' :: stack) e' =
        nodes.filter h.isChildless := fun k hk => ih (by simp only [List.length_cons]; omega)
    simp only [drainLeaves, hnext]
    cases hn : h.isChildless n with
    | false =>
      rw [List.filter_cons_of_neg (by simp [hn])]
      exact hrest steps (Nat.le_refl _)
    | true =>
      -- the level that would be opened for the node is closed in one more step
      have hclosed := hrest (steps + 1) (Nat.le_succ _)
      simp only [drainLeaves, next?_children_of_isChildless hn] at hclosed
      rw [List.filter_cons_of_pos hn, if_pos rfl, hclosed]

/-- Both loops come to an end within their steps, for a scalar as well as for a container. -/
theorem exists_drains (h : Heap) (t : Tree) : ∃ nodes,
    h.Drains [(h.visit t).1] (h.visit t).2 nodes ∧ nodes.length ≤ h.memberCount + 1 := by
  cases t with
  | container root =>
    obtain ⟨ids, hen⟩ := h.exists_enumeration root
    have hle := h.sum_length_le ids.toFinset
    rw [← hen.length_eq] at hle
    exact ⟨_, hen.drains_root, Nat.le_succ_of_le hle⟩
  | _ => exact ⟨[_], .yield rfl (.close rfl (.close rfl .nil)), Nat.succ_le_succ (Nat.zero_le _)⟩

/-- The leaves are the childless nodes of the complete traversal, on every heap. -/
theorem leaves_eq (h : Heap) (t : Tree) : h.leaves t = (h.descendants t).filter h.isChildless := by
  obtain ⟨nodes, hdrains, hle⟩ := h.exists_drains t
  have hsteps : 2 * nodes.length + [(h.visit t).1].length ≤ 2 * (h.memberCount + 1) + 1 := by
    rw [List.length_singleton]
    omega
  have hall : h.descendants t = nodes := hdrains.drain_eq hsteps
  rw [hall]
  exact hdrains.drainLeaves_eq hsteps

end Heap

end Lineage
