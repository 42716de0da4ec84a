import Lineage.Proofs.Tree.Isomorphism

/-! Containers under other identities. Nothing that is done with trees looks at the identity of a
container, other than to compare it with that of another one. So what is done in two heaps that hold the
same containers under different identities comes out the same, whatever else the second of them holds.
-/

namespace Lineage

namespace OrderedMap

variable {κ α β : Type} [DecidableEq κ] (g : α → β)

theorem find_map (k : κ) (es : List (κ × α)) :
    find k (es.map fun e => (e.1, g e.2)) = (find k es).map g := by
  induction es with
  | nil => rfl
  | cons e rest ih =>
    simp only [List.map_cons, find, ih]
    split <;> rfl

theorem put_map (k : κ) (v : α) (es : List (κ × α)) :
    put k (g v) (es.map fun e => (e.1, g e.2)) = (put k v es).map fun e => (e.1, g e.2) := by
  induction es with
  | nil => rfl
  | cons e rest ih =>
    simp only [List.map_cons, put, ih]
    split <;> rfl

theorem get?_mapValues (m : OrderedMap κ α) (k : κ) : (m.mapValues g).get? k = (m.get? k).map g :=
  find_map g k m.entries

theorem contains_mapValues (m : OrderedMap κ α) (k : κ) : (m.mapValues g).contains k = m.contains k := by
  rw [contains, get?_mapValues, Option.isSome_map, contains]

theorem insert_mapValues (m : OrderedMap κ α) (k : κ) (v : α) :
    (m.mapValues g).insert k (g v) = (m.insert k v).mapValues g :=
  ext_entries (put_map g k v m.entries)

end OrderedMap

variable (f : ContainerId → ContainerId)

namespace Tree

def rename : Tree → Tree
  | .container id => .container (f id)
  | t => t

@[simp] theorem id?_rename (t : Tree) : (t.rename f).id? = t.id?.map f := by
  cases t <;> rfl

variable {f} in
/-- What exists is the same where the containers that exist keep their identities. -/
theorem rename_of_has {h : Heap} {t : Tree}
    (hfix : ∀ id < h.size, f id = id) (ht : h.Has t) : t.rename f = t := by
  cases t with
  | container id => exact congrArg container (hfix id (ht id rfl))
  | _ => rfl

end Tree

namespace Container

def rename : Container → Container
  | .object members => .object (members.mapValues (Tree.rename f))
  | .array items => .array (items.map (Tree.rename f))

@[simp] theorem isArray_rename (c : Container) : (c.rename f).isArray = c.isArray := by
  cases c <;> rfl

@[simp] theorem rename_emptyOf (isArray : Bool) : (emptyOf isArray).rename f = emptyOf isArray := by
  cases isArray <;> rfl

theorem indexed_map (start : Nat) (items : List Tree) :
    indexed start (items.map (Tree.rename f)) =
      (indexed start items).map fun e => (e.1, e.2.rename f) := by
  induction items generalizing start with
  | nil => rfl
  | cons t ts ih => rw [List.map_cons, indexed, ih, indexed, List.map_cons]

theorem entries_rename (c : Container) :
    (c.rename f).entries = c.entries.map fun e => (e.1, e.2.rename f) := by
  cases c with
  | object members => simp [rename, entries, OrderedMap.mapValues]
  | array items => exact indexed_map f 0 items

@[simp] theorem size_rename (c : Container) : (c.rename f).size = c.size := by
  rw [← length_entries, entries_rename, List.length_map, length_entries]

theorem member?_rename (c : Container) (s : Segment) :
    (c.rename f).member? s = (c.member? s).map (Tree.rename f) := by
  cases c with
  | object members => exact OrderedMap.get?_mapValues _ members s.token
  | array items =>
    simp only [rename, member?, List.getElem?_map]
    cases s.asIndex <;> rfl

theorem add?_rename (c : Container) (key : Segment) (v : Tree) :
    (c.rename f).add? key (v.rename f) = (c.add? key v).map (rename f) := by
  cases c with
  | object members =>
    simp only [rename, add?, OrderedMap.contains_mapValues, OrderedMap.insert_mapValues]
    split <;> rfl
  | array items =>
    simp only [rename, add?, List.length_map]
    split <;> simp [rename]

theorem store_rename (c : Container) (key : Segment) (v : Tree) :
    (c.rename f).store key (v.rename f) = (c.store key v).rename f := by
  cases c with
  | object members => simp only [rename, store, OrderedMap.insert_mapValues]
  | array items => simp [rename, store]

variable {f} in
theorem rename_of_has {h : Heap} {c : Container}
    (hfix : ∀ id < h.size, f id = id) (hc : ∀ e ∈ c.entries, h.Has e.2) : c.rename f = c := by
  cases c with
  | object members =>
    have hmember : ∀ m ∈ members.entries, (m.1, m.2.rename f) = m := fun m hm =>
      Prod.ext rfl (Tree.rename_of_has hfix (hc _ (List.mem_map_of_mem hm)))
    have hentries : (members.mapValues (Tree.rename f)).entries = members.entries :=
      (List.map_congr_left hmember).trans (List.map_id' _)
    exact congrArg object (OrderedMap.ext_entries hentries)
  | array items =>
    have hitem : ∀ t ∈ items, t.rename f = t := fun t ht => by
      obtain ⟨i, hi⟩ := List.mem_iff_getElem?.mp ht
      exact Tree.rename_of_has hfix (hc (.index (0 + i), t) (mem_indexed.mpr ⟨i, hi, rfl⟩))
    exact congrArg array ((List.map_congr_left hitem).trans (List.map_id' _))

end Container

variable {f}

namespace Heap

/-- The containers of one heap stand in the other one under the identities that `f` gives them, and the
next ones that are made will, too. -/
structure Renames (f : ContainerId → ContainerId) (h h' : Heap) : Prop where
  size_le : h.size ≤ h'.size
  get?_eq : ∀ id, h'.get? (f id) = (h.get? id).map (Container.rename f)
  next : ∀ i, f (h.size + i) = h'.size + i

namespace Renames

variable {h h' : Heap} (hr : h.Renames f h')
include hr

theorem size_eq : f h.size = h'.size := hr.next 0

theorem lt_size_iff {id : ContainerId} : f id < h'.size ↔ id < h.size := by
  constructor
  · intro hlt
    refine Nat.lt_of_not_le fun hle => ?_
    obtain ⟨i, rfl⟩ := Nat.exists_eq_add_of_le hle
    rw [hr.next] at hlt
    exact Nat.not_lt.mpr (Nat.le_add_right _ _) hlt
  · intro hlt
    obtain ⟨c, hc⟩ : ∃ c, h.get? id = some c := ⟨_, Array.getElem?_eq_getElem hlt⟩
    refine lt_size_of_get? (c := c.rename f) ?_
    rw [hr.get?_eq, hc]
    rfl

theorem container?_eq (t : Tree) :
    h'.container? (t.rename f) = (h.container? t).map (Container.rename f) := by
  rw [container?, Tree.id?_rename, container?]
  cases t.id? with
  | none => rfl
  | some id => exact hr.get?_eq id

theorem length_eq (t : Tree) : h'.length (t.rename f) = h.length t := by
  rw [length, hr.container?_eq, length]
  cases h.container? t <;> simp

theorem entries_eq (t : Tree) :
    h'.entries (t.rename f) = (h.entries t).map fun e => (e.1, e.2.rename f) := by
  rw [entries, hr.container?_eq, entries]
  cases h.container? t with
  | none => rfl
  | some c => exact c.entries_rename f

theorem member?_eq (t : Tree) (s : Segment) :
    h'.member? (t.rename f) s = (h.member? t s).map (Tree.rename f) := by
  rw [member?, hr.container?_eq, member?]
  cases h.container? t with
  | none => rfl
  | some c => exact c.member?_rename f s

theorem alloc (hf : Function.Injective f) (c : Container) :
    (h.alloc c).2.Renames f (h'.alloc (c.rename f)).2 where
  size_le := by
    rw [size_alloc, size_alloc]
    exact Nat.succ_le_succ hr.size_le
  get?_eq id := by
    rw [get?_alloc, get?_alloc, ← hr.size_eq]
    by_cases hid : id = h.size
    · rw [if_pos (congrArg f hid), if_pos hid]
      rfl
    · rw [if_neg fun heq => hid (hf heq), if_neg hid, hr.get?_eq]
  next i := by
    rw [size_alloc, size_alloc, Nat.add_assoc, hr.next, Nat.add_assoc]

theorem set (hf : Function.Injective f) (id : ContainerId) (c : Container) :
    (h.set id c).Renames f (h'.set (f id) (c.rename f)) where
  size_le := by
    rw [size_set, size_set]
    exact hr.size_le
  get?_eq other := by
    rw [get?_set, get?_set]
    simp only [hr.lt_size_iff, hf.eq_iff]
    split
    · rfl
    · exact hr.get?_eq other
  next i := by
    rw [size_set, size_set]
    exact hr.next i

theorem store (hf : Function.Injective f) (id : ContainerId) (key : Segment) (v : Tree) :
    (h.store id key v).Renames f (h'.store (f id) key (v.rename f)) := by
  unfold Heap.store
  rw [hr.get?_eq]
  cases h.get? id with
  | none => exact hr
  | some c =>
    rw [Option.map_some]
    dsimp only
    rw [c.store_rename]
    exact hr.set hf id _

end Renames

section Isomorphism

variable {h h' : Heap} {t u : Tree}
  (hget : ∀ id, h.Reaches t (.container id) → h'.get? (f id) = (h.get? id).map (Container.rename f))
include hget

theorem Reaches.container?_rename (hu : h.Reaches t u) :
    h'.container? (u.rename f) = (h.container? u).map (Container.rename f) := by
  rw [container?, Tree.id?_rename, container?]
  cases hid : u.id? with
  | none => rfl
  | some id => exact hget id (Tree.eq_container_of_id? hid ▸ hu)

theorem Reaches.entries_rename (hu : h.Reaches t u) :
    h'.entries (u.rename f) = (h.entries u).map fun e => (e.1, e.2.rename f) := by
  rw [entries, hu.container?_rename hget, entries]
  cases h.container? u with
  | none => rfl
  | some c => exact c.entries_rename f

theorem Reaches.rename (hu : h.Reaches t u) : h'.Reaches (t.rename f) (u.rename f) := by
  induction hu with
  | self => exact .self
  | @member u x hu hx ih =>
    have hx' : (x.1, x.2.rename f) ∈ h'.entries (u.rename f) :=
      hu.entries_rename hget ▸ List.mem_map_of_mem hx
    exact ih.member hx'

/-- Nothing else can be reached. -/
theorem Reaches.exists_of_rename {v : Tree} (hv : h'.Reaches (t.rename f) v) :
    ∃ u, h.Reaches t u ∧ u.rename f = v := by
  induction hv with
  | self => exact ⟨t, .self, rfl⟩
  | member _ hx ih =>
    obtain ⟨u, hu, rfl⟩ := ih
    rw [hu.entries_rename hget] at hx
    obtain ⟨e, he, rfl⟩ := List.mem_map.mp hx
    exact ⟨e.2, hu.member he, rfl⟩

/-- Where the containers that a tree reaches stand under other identities, there is the same tree. -/
theorem isomorphic_rename (hf : Function.Injective f) :
    h.Isomorphic t h' (t.rename f) fun i j => h.Reaches t (.container i) ∧ f i = j := by
  have hcorresponds : ∀ {u : Tree}, h.Reaches t u →
      u.Corresponds (fun i j => h.Reaches t (.container i) ∧ f i = j) (u.rename f) := by
    intro u hu
    cases u with
    | container i => exact ⟨hu, rfl⟩
    | _ => rfl
  constructor
  case trees => exact hcorresponds .self
  case covers => exact fun i => ⟨fun hi => ⟨f i, hi, rfl⟩, fun ⟨_, hi, _⟩ => hi⟩
  case covered =>
    refine fun j => ⟨fun hj => ?_, fun ⟨i, hi, hij⟩ => hij ▸ hi.rename hget⟩
    obtain ⟨u, hu, huj⟩ := Reaches.exists_of_rename hget hj
    cases u with
    | container i => exact ⟨i, hu, Tree.container.inj huj⟩
    | _ => cases huj
  case functional => exact fun ⟨_, hj⟩ ⟨_, hj'⟩ => hj.symm.trans hj'
  case injective => exact fun ⟨_, hi⟩ ⟨_, hi'⟩ => hf (hi.trans hi'.symm)
  case kinds =>
    rintro i _ ⟨hi, rfl⟩
    have hkind := hi.container?_rename hget
    rw [Tree.rename] at hkind
    rw [isArray, hkind, isArray]
    cases h.container? (.container i) <;> simp
  case members =>
    rintro i _ ⟨hi, rfl⟩
    have hentries := hi.entries_rename hget
    rw [Tree.rename] at hentries
    rw [hentries, List.forall₂_map_right_iff, List.forall₂_same]
    exact fun e he => ⟨rfl, hcorresponds (hi.member he)⟩

end Isomorphism

end Heap

namespace Copying

/-- The copies made so far are copies of the same containers. -/
structure Renames (f : ContainerId → ContainerId) (s s' : Copying) : Prop where
  heap : s.heap.Renames f s'.heap
  copies : ∀ id, s'.copies.get? (f id) = (s.copies.get? id).map f

variable {s u s' : Copying} {t v : Tree} {depth : Nat} (hf : Function.Injective f)
include hf

theorem Renames.entered (hr : s.Renames f s') (id : ContainerId) (c : Container) :
    (s.entered id c).Renames f (s'.entered (f id) (c.rename f)) where
  heap := by
    have halloc := hr.heap.alloc hf (.emptyOf c.isArray)
    rw [Container.rename_emptyOf] at halloc
    rw [heap_entered, heap_entered, Container.isArray_rename]
    exact halloc
  copies other := by
    rw [copy?_entered, copy?_entered]
    simp only [hf.eq_iff]
    split
    · rw [Option.map_some, hr.heap.size_eq]
    · exact hr.copies other

theorem fill_rename {inside : Tree → Copying → Option (Tree × Copying)}
    (hinside : ∀ {t s v u s'}, inside t s = some (v, u) → Renames f s s' →
      ∃ u', inside (t.rename f) s' = some (v.rename f, u') ∧ u.Renames f u')
    {copy : ContainerId} {entries : List (Segment × Tree)} (hfill : fill inside copy entries s = some u)
    (hr : s.Renames f s') :
    ∃ u', fill inside (f copy) (entries.map fun e => (e.1, e.2.rename f)) s' = some u' ∧
      u.Renames f u' := by
  induction entries generalizing s s' with
  | nil =>
    cases hfill
    exact ⟨s', rfl, hr⟩
  | cons entry rest ih =>
    obtain ⟨v, w, hw, hrest⟩ := fill_cons_eq_some_iff.mp hfill
    obtain ⟨w', hw', hrw⟩ := hinside hw hr
    have hstored : Renames f { w with heap := w.heap.store copy entry.1 v }
        { w' with heap := w'.heap.store (f copy) entry.1 (v.rename f) } :=
      ⟨hrw.heap.store hf copy entry.1 v, hrw.copies⟩
    obtain ⟨u', hu', hru⟩ := ih hrest hstored
    exact ⟨u', fill_cons_eq_some_iff.mpr ⟨v.rename f, w', hw', hu'⟩, hru⟩

omit hf in
/-- What is copied at once is copied at once under other identities. -/
theorem copyWithin_rename_of_zero (hcopy : copyWithin 0 t s = some (v, u)) (hr : s.Renames f s') (d : Nat) :
    copyWithin d (t.rename f) s' = some (v.rename f, s') := by
  rcases copyWithin_zero_cases hcopy with ⟨hid, rfl⟩ | ⟨i, j, rfl, hj, rfl⟩ | ⟨i, rfl, hnew, hc, rfl⟩
  · have hid' : (v.rename f).id? = none := by rw [Tree.id?_rename, hid]; rfl
    exact copyWithin_scalar hid' d s'
  · have hj' : s'.copies.get? (f i) = some (f j) := by rw [hr.copies, hj]; rfl
    exact copyWithin_known hj' d
  · have hnew' : s'.copies.get? (f i) = none := by rw [hr.copies, hnew]; rfl
    have hc' : s'.heap.get? (f i) = none := by rw [hr.heap.get?_eq, hc]; rfl
    exact copyWithin_missing hnew' hc' d

/-- What is copied is copied to the same, under other identities. -/
theorem copyWithin_rename (hcopy : copyWithin depth t s = some (v, u)) (hr : s.Renames f s') :
    ∃ u', copyWithin depth (t.rename f) s' = some (v.rename f, u') ∧ u.Renames f u' := by
  induction depth generalizing t s v u s' with
  | zero =>
    obtain ⟨rfl, hanyway⟩ | ⟨_, _, _, _, _, _, _, _, hdepth⟩ := copyWithin_cases hcopy
    · exact ⟨s', copyWithin_rename_of_zero (hanyway 0) hr 0, hr⟩
    · cases hdepth
  | succ depth ih =>
    obtain ⟨rfl, hanyway⟩ | ⟨id, c, d, rfl, hnew, hc, hfill, rfl, hdepth⟩ := copyWithin_cases hcopy
    · exact ⟨s', copyWithin_rename_of_zero (hanyway 0) hr _, hr⟩
    · cases hdepth
      have hnew' : s'.copies.get? (f id) = none := by rw [hr.copies, hnew]; rfl
      have hc' : s'.heap.get? (f id) = some (c.rename f) := by rw [hr.heap.get?_eq, hc]; rfl
      obtain ⟨u', hfill', hru⟩ := fill_rename hf ih hfill (hr.entered hf id c)
      refine ⟨u', ?_, hru⟩
      rw [Tree.rename, copyWithin_new hnew' hc', ← hr.heap.size_eq, c.entries_rename, hfill']
      rfl

end Copying

namespace Heap

variable {h h' : Heap} {t : Tree}

/-- Copies of one tree are one tree. -/
theorem Renames.duplicate (hr : h.Renames f h') (hf : Function.Injective f) (hc : h.Closed) (ht : h.Has t) :
    (h'.duplicate (t.rename f)).1 = (h.duplicate t).1.rename f ∧
      (h.duplicate t).2.Renames f (h'.duplicate (t.rename f)).2 := by
  obtain ⟨s, hcopy, hheap⟩ := (Heap.duplicate_isomorphic hc ht).1 h.walkDepth (Nat.le_succ _)
  have hstart : Copying.Renames f ⟨h, .empty⟩ ⟨h', .empty⟩ := ⟨hr, fun _ => rfl⟩
  obtain ⟨s', hcopy', hrs⟩ := Copying.copyWithin_rename hf hcopy hstart
  have hwithin : Copying.copyWithin h'.walkDepth (t.rename f) ⟨h', .empty⟩ =
      some ((h.duplicate t).1.rename f, s') :=
    Copying.copyWithin_mono (Nat.succ_le_succ hr.size_le) hcopy'
  have hduplicate : h'.duplicate (t.rename f) = ((h.duplicate t).1.rename f, s'.heap) := by
    rw [Heap.duplicate, hwithin]
  rw [hduplicate, ← hheap]
  exact ⟨rfl, hrs.heap⟩

end Heap

end Lineage
