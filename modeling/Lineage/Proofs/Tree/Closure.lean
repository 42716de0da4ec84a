import Lineage.Proofs.Tree.Isomorphism

/-! Heaps that stay closed. New members name containers that exist, and a deep copy names its own
containers only, so that nothing ever names a container that is not there.
-/

namespace Lineage

variable {h : Heap} {t v : Tree} {id : ContainerId} {c c' : Container} {key : Segment}

namespace Heap

theorem Closed.set (hc : h.Closed) (id : ContainerId) (hentries : ∀ e ∈ c'.entries, h.Has e.2) :
    (h.set id c').Closed := by
  have hhas {u : Tree} (hu : h.Has u) : (h.set id c').Has u := hu.mono (Nat.le_of_eq (h.size_set id c').symm)
  intro i d hd e he
  rw [get?_set] at hd
  split at hd
  · cases hd
    exact hhas (hentries e he)
  · exact hhas (hc i d hd e he)

theorem Closed.alloc (hc : h.Closed) (hempty : c.size = 0) : (h.alloc c).2.Closed := by
  rw [alloc_eq_append]
  refine closed_append hc fun d hd e he => ?_
  rw [List.mem_singleton.mp hd, Container.entries_of_size_eq_zero hempty] at he
  cases he

/-- A container may be given a member that exists. -/
theorem Closed.extend (hc : h.Closed) (hid : h.get? id = some c) (hv : h.Has v) :
    (h.set id (c.extend [(key, v)])).Closed := by
  refine hc.set id fun e he => ?_
  rcases Container.value_of_extend he with heq | ⟨x, hx, heq⟩
  · exact heq ▸ hv
  · exact heq ▸ hc id c hid x hx

theorem Closed.store (hc : h.Closed) (hv : h.Has v) : (h.store id key v).Closed := by
  unfold Heap.store
  split
  · rename_i c hget
    rw [c.store_eq]
    exact hc.extend hget hv
  · exact hc

end Heap

namespace Copying

variable {s s' : Copying} {depth : Nat} {entries : List (Segment × Tree)}

/-- Nothing in the heap, and no copy, names a container that is not there. -/
structure Closed (s : Copying) : Prop where
  heap : s.heap.Closed
  bounded : s.Bounded

/-- Copying a tree leaves everything closed, and gives a tree that exists. -/
def KeepsClosed (inside : Tree → Copying → Option (Tree × Copying)) : Prop :=
  ∀ {t s v s'}, inside t s = some (v, s') → s.Closed → s.heap.Has t →
    s.heap.Grows s'.heap ∧ s'.Closed ∧ s'.heap.Has v

theorem closed_fill {inside : Tree → Copying → Option (Tree × Copying)} (hinside : KeepsClosed inside)
    {copy : ContainerId} (hfill : fill inside copy entries s = some s') (hs : s.Closed)
    (hentries : ∀ e ∈ entries, s.heap.Has e.2) : s'.Closed := by
  induction entries generalizing s with
  | nil =>
    cases hfill
    exact hs
  | cons entry rest ih =>
    obtain ⟨v, u, hu, hrest⟩ := fill_cons_eq_some_iff.mp hfill
    rw [List.forall_mem_cons] at hentries
    obtain ⟨hgrows, hclosed, hv⟩ := hinside hu hs hentries.1
    have hsize := (u.heap.growsBesides_store copy entry.1 v).1
    refine ih hrest ⟨hclosed.heap.store hv, fun i j hj => ?_⟩ fun e he => ?_
    · exact Nat.lt_of_lt_of_le (hclosed.bounded i j hj) hsize
    · exact (hentries.2 e he).mono (Nat.le_trans hgrows.1 hsize)

theorem Closed.has_of_copyWithin_zero (hs : s.Closed) (ht : s.heap.Has t)
    (hcopy : copyWithin 0 t s = some (v, s')) : s.heap.Has v := by
  rcases copyWithin_zero_cases hcopy with ⟨_, rfl⟩ | ⟨i, j, _, hj, rfl⟩ | ⟨_, _, _, _, rfl⟩
  · exact ht
  · rintro _ ⟨⟩
    exact hs.bounded i j hj
  · exact ht

theorem Closed.entered (hs : s.Closed) (id : ContainerId) (c : Container) : (s.entered id c).Closed where
  heap := by
    rw [heap_entered]
    exact hs.heap.alloc (Container.size_emptyOf _)
  bounded := hs.bounded.entered id c

theorem keepsClosed_copyWithin (depth : Nat) : KeepsClosed (copyWithin depth) := by
  induction depth with
  | zero =>
    intro t s v s' hcopy hs ht
    obtain ⟨rfl, hanyway⟩ | ⟨_, _, _, _, _, _, _, _, hdepth⟩ := copyWithin_cases hcopy
    · exact ⟨.refl _, hs, hs.has_of_copyWithin_zero ht (hanyway 0)⟩
    · cases hdepth
  | succ depth ih =>
    intro t s v s' hcopy hs ht
    refine ⟨grows_copyWithin hcopy, ?_⟩
    obtain ⟨rfl, hanyway⟩ | ⟨id, c, d, rfl, _, hc, hfill, rfl, hdepth⟩ := copyWithin_cases hcopy
    · exact ⟨hs, hs.has_of_copyWithin_zero ht (hanyway 0)⟩
    · cases hdepth
      have hentries : ∀ e ∈ c.entries, (s.entered id c).heap.Has e.2 := fun e he =>
        (hs.heap id c hc e he).mono (s.grows_entered id c).1
      have hsize := (growsBesides_fill (fun _ _ _ _ => grows_copyWithin) hfill).1
      refine ⟨closed_fill ih hfill (hs.entered id c) hentries, ?_⟩
      rintro _ ⟨⟩
      exact Nat.lt_of_lt_of_le (Heap.lt_size_of_get? (s.get?_entered id c)) hsize

end Copying

namespace Heap

/-- A deep copy names its own containers only, and they all exist. -/
theorem Closed.duplicate (hc : h.Closed) (ht : h.Has t) :
    (h.duplicate t).2.Closed ∧ (h.duplicate t).2.Has (h.duplicate t).1 := by
  obtain ⟨s, hcopy, hheap⟩ := (duplicate_isomorphic hc ht).1 h.size (Nat.le_refl _)
  have hstart : Copying.Closed ⟨h, .empty⟩ := ⟨hc, fun _ _ hj => nomatch hj⟩
  obtain ⟨_, hclosed, hv⟩ := Copying.keepsClosed_copyWithin h.size hcopy hstart ht
  exact hheap ▸ ⟨hclosed.heap, hv⟩

end Heap

end Lineage
