import Lineage.Proofs.Tree.Additions

/-! What can be reached from a tree. A pointer resolves to something that can be reached, and two heaps
that agree on the containers that a tree reaches agree on the whole tree. A tree may contain itself: a
container loops when it is reached from one of its members. -/

namespace Lineage.Heap

/-- The trees that can be reached from a tree by going from containers to their members. -/
inductive Reaches (h : Heap) (t : Tree) : Tree → Prop
  | self : Reaches h t t
  | member {u : Tree} {x : Segment × Tree} (hu : Reaches h t u) (hx : x ∈ h.entries u) :
      Reaches h t x.2

/-- The container is reached from itself by going to at least one member. -/
def Loops (h : Heap) (id : ContainerId) : Prop :=
  ∃ x ∈ h.entries (.container id), h.Reaches x.2 (.container id)

variable {h h' : Heap} {t u v : Tree}

theorem Reaches.trans (hu : h.Reaches t u) (hv : h.Reaches u v) : h.Reaches t v := by
  induction hv with
  | self => exact hu
  | member _ hx ih => exact ih.member hx

/-- What is below a tree is below one of its members. -/
theorem Reaches.eq_or_exists (hu : h.Reaches t u) : u = t ∨ ∃ x ∈ h.entries t, h.Reaches x.2 u := by
  induction hu with
  | self => exact .inl rfl
  | member _ hx ih =>
    rcases ih with rfl | ⟨y, hy, hreach⟩
    · exact .inr ⟨_, hx, .self⟩
    · exact .inr ⟨y, hy, hreach.member hx⟩

theorem Reaches.follow? (hu : h.Reaches t u) {ss : List Segment} (hv : h.follow? u ss = some v) :
    h.Reaches t v := by
  induction ss generalizing u with
  | nil =>
    cases hv
    exact hu
  | cons s rest ih =>
    obtain ⟨w, hw, hrest⟩ := Option.bind_eq_some_iff.mp hv
    obtain ⟨e, he, _, rfl⟩ := exists_entry_of_member? hw
    exact ih (.member hu he) hrest

section SameTree

variable (hsame : ∀ id, h.Reaches t (.container id) → h'.get? id = h.get? id)
include hsame

theorem Reaches.container?_eq (hu : h.Reaches t u) : h'.container? u = h.container? u := by
  unfold container?
  cases hid : u.id? with
  | none => rfl
  | some id =>
    obtain rfl := Tree.eq_container_of_id? hid
    exact hsame id hu

theorem Reaches.entries_eq (hu : h.Reaches t u) : h'.entries u = h.entries u := by
  rw [entries, entries, hu.container?_eq hsame]

/-- What can be reached is the same in heaps with the same tree. -/
theorem Reaches.congr (hu : h.Reaches t u) : h'.Reaches t u := by
  induction hu with
  | self => exact .self
  | member hu hx ih => exact .member ih ((hu.entries_eq hsame).symm ▸ hx)

theorem Reaches.follow?_eq (hu : h.Reaches t u) (ss : List Segment) :
    h'.follow? u ss = h.follow? u ss := by
  induction ss generalizing u with
  | nil => rfl
  | cons s rest ih =>
    rw [Heap.follow?, Heap.follow?, member?, member?, hu.container?_eq hsame, ← member?]
    cases hm : h.member? u s with
    | none => rfl
    | some w =>
      obtain ⟨e, he, _, rfl⟩ := exists_entry_of_member? hm
      exact ih (.member hu he)

/-- Nothing else can be reached. -/
theorem Reaches.of_congr (hu : h'.Reaches t u) : h.Reaches t u := by
  induction hu with
  | self => exact .self
  | member _ hx ih => exact .member ih (ih.entries_eq hsame ▸ hx)

end SameTree

end Lineage.Heap
