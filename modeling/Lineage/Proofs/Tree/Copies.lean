import Lineage.Proofs.Tree.Additions
import Lineage.Tree.Copy

/-! What a deep copy leaves alone. Copies are made of new containers and only they are filled, so every
container that was there before a copy was begun is as it was, also where the copy is part of a larger
one. Arrays that have an index for each item are copied to such arrays. -/

namespace Lineage

variable {h h' : Heap} {id copy : ContainerId} {c : Container} {key : Segment} {v : Tree}

namespace Container

theorem store_eq (c : Container) (key : Segment) (v : Tree) :
    c.store key v = c.extend [(key, v)] := by
  cases c <;> rfl

theorem indexable_of_extend {es : List (Segment × Tree)} (hc : (c.extend es).Indexable) :
    c.Indexable := by
  cases c with
  | object members => trivial
  | array items =>
    simp only [extend, Indexable, List.length_append] at hc
    exact Nat.le_trans (Nat.le_add_right _ _) hc

/-- What is stored in place of an entry takes as much room. -/
theorem indexable_extend_store (c : Container) {e : Segment × Tree} {rest : List (Segment × Tree)}
    (hc : (c.extend (e :: rest)).Indexable) (v : Tree) : ((c.store e.1 v).extend rest).Indexable := by
  cases c with
  | object members => trivial
  | array items =>
    simp only [extend, store, Indexable, List.length_append, List.length_map, List.length_cons,
      List.length_nil] at hc ⊢
    omega

theorem indexable_extend_entries (c : Container) (hc : c.Indexable) :
    ((emptyOf c.isArray).extend c.entries).Indexable := by
  cases c with
  | object members => trivial
  | array items => simpa [extend, emptyOf, emptyArray, isArray, entries, Indexable, length_indexed]
      using hc

end Container

namespace Heap

/-- All old containers but one are as they were, and there may be new ones. -/
def GrowsBesides (h : Heap) (id : ContainerId) (h' : Heap) : Prop :=
  h.size ≤ h'.size ∧ ∀ i < h.size, i ≠ id → h'.get? i = h.get? i

theorem Grows.besides (hg : h.Grows h') (id : ContainerId) : h.GrowsBesides id h' :=
  ⟨hg.1, fun i hi _ => hg.2 i hi⟩

theorem GrowsBesides.trans {h'' : Heap} (h₁ : h.GrowsBesides id h') (h₂ : h'.GrowsBesides id h'') :
    h.GrowsBesides id h'' :=
  ⟨Nat.le_trans h₁.1 h₂.1, fun i hi hne => (h₂.2 i (Nat.lt_of_lt_of_le hi h₁.1) hne).trans (h₁.2 i hi hne)⟩

/-- What is new to a heap may be changed without changing what the heap had. -/
theorem Grows.besides_grows {old : Heap} (hg : old.Grows h) (hid : old.size ≤ id)
    (hb : h.GrowsBesides id h') : old.Grows h' :=
  ⟨Nat.le_trans hg.1 hb.1, fun i hi =>
    (hb.2 i (Nat.lt_of_lt_of_le hi hg.1) (Nat.ne_of_lt (Nat.lt_of_lt_of_le hi hid))).trans (hg.2 i hi)⟩

theorem store_eq_set (hc : h.get? id = some c) (key : Segment) (v : Tree) :
    h.store id key v = h.set id (c.store key v) := by
  rw [store, hc]

theorem get?_store (hc : h.get? id = some c) (key : Segment) (v : Tree) :
    (h.store id key v).get? id = some (c.store key v) := by
  rw [store_eq_set hc, get?_set, if_pos ⟨rfl, lt_size_of_get? hc⟩]

theorem growsBesides_store (h : Heap) (id : ContainerId) (key : Segment) (v : Tree) :
    h.GrowsBesides id (h.store id key v) := by
  unfold store
  cases hc : h.get? id with
  | none => exact (Grows.refl h).besides id
  | some c =>
    refine ⟨Nat.le_of_eq (size_set ..).symm, fun i _ hne => ?_⟩
    rw [get?_set, if_neg fun heq => hne heq.1.symm]

theorem Indexable.store (hi : h.Indexable) (hc : h.get? id = some c)
    (hstored : (c.store key v).Indexable) : (h.store id key v).Indexable := by
  intro i d hd
  rw [store_eq_set hc, get?_set] at hd
  split at hd
  · cases hd
    exact hstored
  · exact hi i d hd

end Heap

namespace Copying

variable {s s' : Copying} {t : Tree} {depth : Nat} {entries : List (Segment × Tree)}
  {inside inside' : Tree → Copying → Option (Tree × Copying)}

/-- The state in which the members of a container are copied. -/
def entered (s : Copying) (id : ContainerId) (c : Container) : Copying := (s.enter id c).2

theorem copy?_entered (s : Copying) (id : ContainerId) (c : Container) (i : ContainerId) :
    (s.entered id c).copies.get? i = if id = i then some s.heap.size else s.copies.get? i :=
  OrderedMap.get?_insert ..

theorem heap_entered (s : Copying) (id : ContainerId) (c : Container) :
    (s.entered id c).heap = (s.heap.alloc (.emptyOf c.isArray)).2 := rfl

theorem grows_entered (s : Copying) (id : ContainerId) (c : Container) :
    s.heap.Grows (s.entered id c).heap := s.heap.grows_alloc _

theorem get?_entered (s : Copying) (id : ContainerId) (c : Container) :
    (s.entered id c).heap.get? s.heap.size = some (.emptyOf c.isArray) := by
  rw [heap_entered, Heap.get?_alloc, if_pos rfl]

theorem copyWithin_scalar (ht : t.id? = none) (depth : Nat) (s : Copying) :
    copyWithin depth t s = some (t, s) := by
  unfold copyWithin
  cases t with
  | container id => cases ht
  | _ => rfl

theorem copyWithin_known (hknown : s.copies.get? id = some copy) (depth : Nat) :
    copyWithin depth (.container id) s = some (.container copy, s) := by
  unfold copyWithin
  simp only [hknown]

/-- What names no container is left as it is. -/
theorem copyWithin_missing (hnew : s.copies.get? id = none) (hc : s.heap.get? id = none) (depth : Nat) :
    copyWithin depth (.container id) s = some (.container id, s) := by
  unfold copyWithin
  simp only [hnew, hc]

/-- A container that has no copy gets one, and its members are copied into it. -/
theorem copyWithin_new (hnew : s.copies.get? id = none) (hc : s.heap.get? id = some c) :
    copyWithin (depth + 1) (.container id) s =
      (fill (copyWithin depth) s.heap.size c.entries (s.entered id c)).map
        (.container s.heap.size, ·) := by
  conv => lhs; unfold copyWithin
  simp only [hnew, hc]
  rw [Option.map_eq_bind]
  rfl

/-- A tree is copied at once, whatever the depth, or it is a container that gets its copy. -/
theorem copyWithin_cases (hcopy : copyWithin depth t s = some (v, s')) :
    (s' = s ∧ ∀ d, copyWithin d t s = some (v, s)) ∨
    ∃ id c d, t = .container id ∧ s.copies.get? id = none ∧ s.heap.get? id = some c ∧
      fill (copyWithin d) s.heap.size c.entries (s.entered id c) = some s' ∧
      v = .container s.heap.size ∧ depth = d + 1 := by
  cases hid : t.id? with
  | none =>
    rw [copyWithin_scalar hid] at hcopy
    cases hcopy
    exact .inl ⟨rfl, fun d => copyWithin_scalar hid d s⟩
  | some id =>
    obtain rfl := Tree.eq_container_of_id? hid
    cases hknown : s.copies.get? id with
    | some copy =>
      rw [copyWithin_known hknown] at hcopy
      cases hcopy
      exact .inl ⟨rfl, fun d => copyWithin_known hknown d⟩
    | none =>
      cases hc : s.heap.get? id with
      | none =>
        rw [copyWithin_missing hknown hc] at hcopy
        cases hcopy
        exact .inl ⟨rfl, copyWithin_missing hknown hc⟩
      | some c =>
        cases depth with
        | zero =>
          unfold copyWithin at hcopy
          simp only [hknown, hc] at hcopy
          cases hcopy
        | succ d =>
          rw [copyWithin_new hknown hc] at hcopy
          obtain ⟨u, hu, heq⟩ := Option.map_eq_some_iff.mp hcopy
          cases heq
          exact .inr ⟨id, c, d, rfl, hknown, hc, hu, rfl, rfl⟩

/-- What is copied at once names no container, or one that has a copy, or none that is there. -/
theorem copyWithin_zero_cases (hcopy : copyWithin 0 t s = some (v, s')) :
    (t.id? = none ∧ v = t) ∨
    (∃ i j, t = .container i ∧ s.copies.get? i = some j ∧ v = .container j) ∨
    ∃ i, t = .container i ∧ s.copies.get? i = none ∧ s.heap.get? i = none ∧ v = t := by
  cases hid : t.id? with
  | none =>
    rw [copyWithin_scalar hid] at hcopy
    cases hcopy
    exact .inl ⟨rfl, rfl⟩
  | some i =>
    obtain rfl := Tree.eq_container_of_id? hid
    refine .inr ?_
    cases hknown : s.copies.get? i with
    | some j =>
      rw [copyWithin_known hknown] at hcopy
      cases hcopy
      exact .inl ⟨i, j, rfl, hknown, rfl⟩
    | none =>
      cases hc : s.heap.get? i with
      | none =>
        rw [copyWithin_missing hknown hc] at hcopy
        cases hcopy
        exact .inr ⟨i, rfl, hknown, hc, rfl⟩
      | some c =>
        unfold copyWithin at hcopy
        simp only [hknown, hc] at hcopy
        cases hcopy

theorem fill_cons_eq_some_iff {entry : Segment × Tree} :
    fill inside copy (entry :: entries) s = some s' ↔ ∃ v u, inside entry.2 s = some (v, u) ∧
      fill inside copy entries { u with heap := u.heap.store copy entry.1 v } = some s' := by
  rw [fill]
  constructor
  · intro hfill
    obtain ⟨⟨v, u⟩, hinside, hrest⟩ := Option.bind_eq_some_iff.mp hfill
    exact ⟨v, u, hinside, hrest⟩
  · rintro ⟨v, u, hinside, hrest⟩
    exact Option.bind_eq_some_iff.mpr ⟨(v, u), hinside, hrest⟩

theorem fill_mono (hinside : ∀ t s r, inside t s = some r → inside' t s = some r)
    (hfill : fill inside copy entries s = some s') : fill inside' copy entries s = some s' := by
  induction entries generalizing s with
  | nil => exact hfill
  | cons entry rest ih =>
    obtain ⟨v, u, hu, hrest⟩ := fill_cons_eq_some_iff.mp hfill
    exact fill_cons_eq_some_iff.mpr ⟨v, u, hinside _ _ _ hu, ih hrest⟩

/-- More depth makes the same copy. -/
theorem copyWithin_mono {depth' : Nat} (hle : depth ≤ depth')
    (hcopy : copyWithin depth t s = some (v, s')) : copyWithin depth' t s = some (v, s') := by
  induction depth generalizing depth' t s v s' with
  | zero =>
    obtain ⟨rfl, hanyway⟩ | ⟨_, _, _, _, _, _, _, _, hdepth⟩ := copyWithin_cases hcopy
    · exact hanyway depth'
    · cases hdepth
  | succ depth ih =>
    obtain ⟨rfl, hanyway⟩ | ⟨id, c, d, rfl, hnew, hc, hfill, rfl, hdepth⟩ := copyWithin_cases hcopy
    · exact hanyway depth'
    · cases hdepth
      obtain ⟨d', rfl⟩ : ∃ d', depth' = d' + 1 := Nat.exists_eq_add_of_le' (Nat.le_of_lt_succ (by omega))
      have hmore := fill_mono (fun _ _ _ => ih (Nat.le_of_succ_le_succ hle)) hfill
      rw [copyWithin_new hnew hc, hmore]
      rfl

/-- A container is filled without touching another one, if its members are copied so. -/
theorem growsBesides_fill (hinside : ∀ t s v u, inside t s = some (v, u) → s.heap.Grows u.heap)
    (hfill : fill inside copy entries s = some s') : s.heap.GrowsBesides copy s'.heap := by
  induction entries generalizing s with
  | nil =>
    cases hfill
    exact (Heap.Grows.refl _).besides copy
  | cons entry rest ih =>
    obtain ⟨v, u, hu, hrest⟩ := fill_cons_eq_some_iff.mp hfill
    exact ((hinside _ _ _ _ hu).besides copy).trans
      ((u.heap.growsBesides_store copy entry.1 v).trans (ih hrest))

theorem grows_copyWithin (hcopy : copyWithin depth t s = some (v, s')) : s.heap.Grows s'.heap := by
  induction depth generalizing t s v s' with
  | zero =>
    obtain ⟨rfl, _⟩ | ⟨_, _, _, _, _, _, _, _, hdepth⟩ := copyWithin_cases hcopy
    · exact .refl _
    · cases hdepth
  | succ depth ih =>
    obtain ⟨rfl, _⟩ | ⟨id, c, d, _, _, _, hfill, _, hdepth⟩ := copyWithin_cases hcopy
    · exact .refl _
    · cases hdepth
      exact (s.grows_entered id c).besides_grows (Nat.le_refl _)
        (growsBesides_fill (fun _ _ _ _ => ih) hfill)

/-- The container stays one with an index for each item when the entries are stored in it. -/
theorem indexable_fill
    (hinside : ∀ t s v u, inside t s = some (v, u) →
      s.heap.Grows u.heap ∧ (s.heap.Indexable → u.heap.Indexable))
    (hi : s.heap.Indexable) (hc : s.heap.get? copy = some c) (hroom : (c.extend entries).Indexable)
    (hfill : fill inside copy entries s = some s') : s'.heap.Indexable := by
  induction entries generalizing s c with
  | nil =>
    cases hfill
    exact hi
  | cons entry rest ih =>
    obtain ⟨v, u, hu, hrest⟩ := fill_cons_eq_some_iff.mp hfill
    obtain ⟨hg, hiu⟩ := hinside _ _ _ _ hu
    have hcu : u.heap.get? copy = some c := hg.get? hc
    have hstored : ((c.store entry.1 v).extend rest).Indexable := c.indexable_extend_store hroom v
    refine ih ?_ (Heap.get?_store hcu entry.1 v) hstored hrest
    exact (hiu hi).store hcu (Container.indexable_of_extend hstored)

theorem indexable_copyWithin (hi : s.heap.Indexable) (hcopy : copyWithin depth t s = some (v, s')) :
    s'.heap.Indexable := by
  induction depth generalizing t s v s' with
  | zero =>
    obtain ⟨rfl, _⟩ | ⟨_, _, _, _, _, _, _, _, hdepth⟩ := copyWithin_cases hcopy
    · exact hi
    · cases hdepth
  | succ depth ih =>
    obtain ⟨rfl, _⟩ | ⟨id, c, d, _, _, hc, hfill, _, hdepth⟩ := copyWithin_cases hcopy
    · exact hi
    · cases hdepth
      have hempty : (Container.emptyOf c.isArray).Indexable :=
        Container.indexable_of_size_eq_zero (Container.size_emptyOf _)
      exact indexable_fill (fun t s v u hu => ⟨grows_copyWithin hu, fun hi => ih hi hu⟩)
        (hi.alloc hempty) (s.get?_entered id c) (c.indexable_extend_entries (hi id c hc)) hfill

end Copying

namespace Heap

theorem grows_duplicate (h : Heap) (t : Tree) : h.Grows (h.duplicate t).2 := by
  unfold duplicate
  split
  · exact Copying.grows_copyWithin ‹_›
  · exact .refl h

theorem Indexable.duplicate (hi : h.Indexable) (t : Tree) : (h.duplicate t).2.Indexable := by
  unfold Heap.duplicate
  split
  · exact Copying.indexable_copyWithin hi ‹_›
  · exact hi

end Heap

end Lineage
