import Lineage.Proofs.Run.Operations
import Mathlib.Data.List.Induction

/-! Where the containers of a run stand. A run registers each container that it allocates with the
output path it was made for. The registered containers form a tree inside the output: each stands
under the last name of its path in the one that is registered for the rest of the path, and no two
are registered for one path. Values that are only written may alias them from anywhere. -/

namespace Lineage

namespace RunState

/-- The run allocated the container for this path of its output. -/
def AllocatedAt (s : RunState) (id : ContainerId) (path : List String) : Prop :=
  ∃ p, s.run.registry.get? id = some p ∧ p.tokens = path

/-- What a container has under a name, or at the index that the name denotes. -/
def memberAt (s : RunState) (id : ContainerId) (name : String) : Option Tree :=
  s.workspace.heap.member? (.container id) (.key name)

/-- The registry agrees with the output. -/
structure Placed (s : RunState) : Prop where
  indexable : s.workspace.heap.Indexable
  root : s.AllocatedAt s.run.root.backing []
  lt_size : ∀ id path, s.AllocatedAt id path → id < s.workspace.heap.size
  unique : ∀ i j path, s.AllocatedAt i path → s.AllocatedAt j path → i = j
  parent : ∀ i path name, s.AllocatedAt i (path ++ [name]) →
    ∃ j, s.AllocatedAt j path ∧ s.memberAt j name = some (.container i)

variable {s s' : RunState}

theorem AllocatedAt.path_eq {id : ContainerId} {p q : List String} (hp : s.AllocatedAt id p)
    (hq : s.AllocatedAt id q) : p = q := by
  obtain ⟨r, hr, rfl⟩ := hp
  obtain ⟨r', hr', rfl⟩ := hq
  rw [hr] at hr'
  cases hr'
  rfl

theorem AllocatedAt.ne {i id : ContainerId} {path : List String} (hi : s.AllocatedAt i path)
    (hfree : s.run.registry.get? id = none) : i ≠ id := by
  obtain ⟨q, hq, _⟩ := hi
  rintro rfl
  rw [hfree] at hq
  cases hq

theorem allocatedAt_congr (hreg : s'.run.registry = s.run.registry) (id : ContainerId)
    (path : List String) : s'.AllocatedAt id path ↔ s.AllocatedAt id path := by
  simp only [AllocatedAt, hreg]

theorem memberAt_token (s : RunState) (id : ContainerId) (key : Segment) :
    s.memberAt id key.token = s.workspace.heap.member? (.container id) key :=
  s.workspace.heap.member?_congr _ rfl

/-- Above a registered container there is one for every part of its path, which has the next name of
the path as a member. -/
theorem Placed.exists_above (hs : s.Placed) {i : ContainerId} {path rest : List String}
    {name : String} (hi : s.AllocatedAt i (path ++ name :: rest)) :
    ∃ j, s.AllocatedAt j path ∧ (s.memberAt j name).isSome := by
  induction rest using List.reverseRecOn generalizing i with
  | nil =>
    obtain ⟨j, hj, hm⟩ := hs.parent i path name hi
    exact ⟨j, hj, by rw [hm]; rfl⟩
  | append_singleton rest last ih =>
    rw [← List.cons_append, ← List.append_assoc] at hi
    obtain ⟨j, hj, _⟩ := hs.parent i _ last hi
    exact ih hj

theorem Placed.exists_prefix (hs : s.Placed) {i : ContainerId} {path rest : List String}
    (hi : s.AllocatedAt i (path ++ rest)) : ∃ j, s.AllocatedAt j path := by
  cases rest with
  | nil => exact ⟨i, by rwa [List.append_nil] at hi⟩
  | cons name rest =>
    obtain ⟨j, hj, _⟩ := hs.exists_above hi
    exact ⟨j, hj⟩

/-- The path of a registered container leads to it from the output root. -/
theorem Placed.follow?_eq (hs : s.Placed) {i : ContainerId} {path : List String}
    (hi : s.AllocatedAt i path) :
    s.workspace.heap.follow? s.run.root.tree (path.map .key) = some (.container i) := by
  induction path using List.reverseRecOn generalizing i with
  | nil => rw [hs.unique i _ [] hi hs.root]; rfl
  | append_singleton path name ih =>
    obtain ⟨j, hj, hm⟩ := hs.parent i path name hi
    rw [List.map_append, Heap.follow?_append, ih hj, Option.bind_some]
    simp only [memberAt] at hm
    simp only [List.map_cons, List.map_nil, Heap.follow?, hm, Option.bind_some]

theorem memberAt_extends (hx : s.workspace.heap.Extends s'.workspace.heap) {id : ContainerId}
    {name : String} {t : Tree} (hm : s.memberAt id name = some t) :
    s'.memberAt id name = some t := hx.member? hm

/-- The registry still agrees when containers and members are added. -/
theorem Placed.extends (hs : s.Placed) (hreg : s'.run.registry = s.run.registry)
    (hroot : s'.run.root = s.run.root) (hx : s.workspace.heap.Extends s'.workspace.heap)
    (hsize : s.workspace.heap.size ≤ s'.workspace.heap.size)
    (hi : s'.workspace.heap.Indexable) : s'.Placed := by
  have hat := allocatedAt_congr hreg
  refine ⟨hi, ?_, ?_, ?_, ?_⟩
  · rw [hroot, hat]
    exact hs.root
  · intro id path ha
    exact Nat.lt_of_lt_of_le (hs.lt_size id path ((hat id path).mp ha)) hsize
  · intro i j path hi hj
    exact hs.unique i j path ((hat i path).mp hi) ((hat j path).mp hj)
  · intro i path name ha
    obtain ⟨j, hj, hm⟩ := hs.parent i path name ((hat i _).mp ha)
    exact ⟨j, (hat j path).mpr hj, memberAt_extends hx hm⟩

theorem allocatedAt_registered (s : RunState) (id : ContainerId) (q : Pointer) (i : ContainerId)
    (path : List String) : (s.registered id q).AllocatedAt i path ↔
      if i = id then q.tokens = path else s.AllocatedAt i path := by
  simp only [AllocatedAt, registered, OrderedMap.get?_insert]
  by_cases hi : i = id
  · subst hi; simp
  · rw [if_neg hi]
    simp [Ne.symm hi]

/-- A container that stands at a path where none is registered may be registered there. -/
theorem Placed.registered (hs : s.Placed) {id j : ContainerId} {path : List String}
    {name : String} {q : Pointer} (hfree : s.run.registry.get? id = none)
    (hlt : id < s.workspace.heap.size) (hj : s.AllocatedAt j path)
    (hm : s.memberAt j name = some (.container id)) (hq : q.tokens = path ++ [name])
    (hnone : ∀ i, ¬s.AllocatedAt i (path ++ [name])) : (s.registered id q).Placed := by
  have hold : ∀ i p, s.AllocatedAt i p → (s.registered id q).AllocatedAt i p := by
    intro i p hi
    rwa [allocatedAt_registered, if_neg (hi.ne hfree)]
  refine ⟨hs.indexable, hold _ _ hs.root, ?_, ?_, ?_⟩
  · intro i p hi
    rw [allocatedAt_registered] at hi
    split at hi
    · subst i; exact hlt
    · exact hs.lt_size i p hi
  · intro i k p hi hk
    rw [allocatedAt_registered, hq] at hi hk
    split at hi <;> split at hk
    · subst i; subst k; rfl
    · subst hi; exact absurd hk (hnone k)
    · subst hk; exact absurd hi (hnone i)
    · exact hs.unique i k p hi hk
  · intro i p n hi
    rw [allocatedAt_registered] at hi
    split at hi
    · subst i
      obtain ⟨rfl, hn⟩ := List.append_inj' (hq.symm.trans hi) rfl
      cases hn
      exact ⟨j, hold j _ hj, hm⟩
    · obtain ⟨k, hk, hmk⟩ := hs.parent i p n hi
      exact ⟨k, hold k p hk, hmk⟩

end RunState

end Lineage
