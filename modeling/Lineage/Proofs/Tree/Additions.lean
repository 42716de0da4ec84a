import Lineage.Proofs.Tree.Growth

/-! Containers that are filled and heaps that get new containers. A container that is filled member by
member is the container extended by all of them, and writing to old containers commutes with adding
new ones behind them. Closed heaps name only containers that exist. -/

namespace Lineage

namespace OrderedMap

variable {κ α : Type} [DecidableEq κ]

theorem contains_insert (m : OrderedMap κ α) (k x : κ) (v : α) :
    (m.insert k v).contains x = (decide (k = x) || m.contains x) := by
  rw [contains, get?_insert]
  by_cases h : k = x <;> simp [h, contains]

theorem mem_put {k : κ} {v : α} {es : List (κ × α)} {e : κ × α} (h : e ∈ put k v es) :
    e = (k, v) ∨ e ∈ es := by
  induction es with
  | nil => simpa [put] using h
  | cons x rest ih =>
    unfold put at h
    split at h
    · rename_i hk
      rcases List.mem_cons.mp h with rfl | h
      · exact .inl (by rw [← hk])
      · exact .inr (List.mem_cons_of_mem _ h)
    · rcases List.mem_cons.mp h with rfl | h
      · exact .inr List.mem_cons_self
      · exact (ih h).imp_right (List.mem_cons_of_mem _)

theorem contains_eq_false_iff {m : OrderedMap κ α} {k : κ} :
    m.contains k = false ↔ k ∉ m.entries.map Prod.fst := by
  have hfind : ∀ es : List (κ × α), (find k es).isSome = true ↔ k ∈ es.map Prod.fst := by
    intro es
    induction es with
    | nil => simp [find]
    | cons e rest ih =>
      unfold find
      by_cases hk : e.1 = k
      · simp [hk]
      · simp [hk, ih, Ne.symm hk]
  rw [← hfind, contains, get?, Bool.not_eq_true]

theorem mem_keys_iff {m : OrderedMap κ α} {k : κ} : k ∈ m.keys ↔ m.contains k = true := by
  rw [← Bool.not_eq_false, contains_eq_false_iff, Decidable.not_not]
  rfl

/-- What a map made of entries has under a key is one of them. -/
theorem mem_of_get?_ofList {es : List (κ × α)} {k : κ} {v : α} (h : (ofList es).get? k = some v) :
    (k, v) ∈ es := by
  have hfold : ∀ (es : List (κ × α)) (m : OrderedMap κ α),
      (es.foldl (fun m e => m.insert e.1 e.2) m).get? k = some v → (k, v) ∈ es ∨ m.get? k = some v := by
    intro es
    induction es with
    | nil => exact fun _ h => .inr h
    | cons e rest ih =>
      intro m h
      rcases ih _ h with hmem | hget
      · exact .inl (List.mem_cons_of_mem _ hmem)
      · rw [get?_insert] at hget
        split at hget
        · subst k
          cases hget
          exact .inl List.mem_cons_self
        · exact .inr hget
  exact (hfold es empty h).resolve_right (by simp [get?, find])

end OrderedMap

theorem Tree.id?_eq_some_iff {t : Tree} {id : ContainerId} :
    t.id? = some id ↔ t = .container id := by
  cases t <;> simp [Tree.id?]

theorem Tree.eq_container_of_id? {t : Tree} {id : ContainerId} (h : t.id? = some id) :
    t = .container id := id?_eq_some_iff.mp h

namespace Container

/-- The empty container of a kind. -/
def emptyOf (isArray : Bool) : Container := if isArray then emptyArray else emptyObject

/-- The container after members are written to it one by one, each under the token of its key or, in
an array, behind the last item. -/
def extend (c : Container) (es : List (Segment × Tree)) : Container :=
  match c with
  | .object members => .object (es.foldl (fun m e => m.insert e.1.token e.2) members)
  | .array items => .array (items ++ es.map Prod.snd)

@[simp] theorem extend_nil (c : Container) : c.extend [] = c := by
  cases c <;> simp [extend]

theorem extend_append (c : Container) (es fs : List (Segment × Tree)) :
    c.extend (es ++ fs) = (c.extend es).extend fs := by
  cases c <;> simp [extend]

theorem extend_cons (c : Container) (e : Segment × Tree) (es : List (Segment × Tree)) :
    c.extend (e :: es) = (c.extend [e]).extend es := c.extend_append [e] es

@[simp] theorem size_emptyOf (isArray : Bool) : (emptyOf isArray).size = 0 := by
  cases isArray <;> rfl

@[simp] theorem isArray_emptyOf (isArray : Bool) : (emptyOf isArray).isArray = isArray := by
  cases isArray <;> rfl

@[simp] theorem isArray_extend (c : Container) (ms : List (Segment × Tree)) :
    (c.extend ms).isArray = c.isArray := by
  cases c <;> rfl

theorem entries_of_size_eq_zero {c : Container} (h : c.size = 0) : c.entries = [] := by
  cases c with
  | object members => exact List.map_eq_nil_iff.mpr (List.eq_nil_of_length_eq_zero h)
  | array items =>
    obtain rfl : items = [] := List.eq_nil_of_length_eq_zero h
    rfl

/-- A member that is added is the only one by which the container is extended. -/
theorem eq_extend_of_add? {c c' : Container} {key : Segment} {v : Tree} (h : c.add? key v = some c') :
    c' = c.extend [(key, v)] := by
  cases c <;> (simp only [add?] at h; split at h <;> cases h; rfl)

theorem isArray_of_add? {c c' : Container} {key : Segment} {v : Tree} (h : c.add? key v = some c') :
    c'.isArray = c.isArray := by
  rw [eq_extend_of_add? h, isArray_extend]

/-- What a member that is written brings into a container is its value. -/
theorem value_of_extend {c : Container} {key : Segment} {v : Tree} {e : Segment × Tree}
    (he : e ∈ (c.extend [(key, v)]).entries) : e.2 = v ∨ ∃ x ∈ c.entries, x.2 = e.2 := by
  cases c with
  | object members =>
    obtain ⟨m, hm, rfl⟩ := List.mem_map.mp he
    rcases OrderedMap.mem_put hm with rfl | hm
    · exact .inl rfl
    · exact .inr ⟨_, List.mem_map_of_mem hm, rfl⟩
  | array items =>
    obtain ⟨i, hi, _⟩ := mem_indexed.mp he
    rcases List.mem_append.mp (List.mem_of_getElem? hi) with hv | hv
    · obtain ⟨j, hj⟩ := List.mem_iff_getElem?.mp hv
      exact .inr ⟨(.index (0 + j), e.2), mem_indexed.mpr ⟨j, hj, rfl⟩, rfl⟩
    · exact .inl (List.mem_singleton.mp hv)

theorem value_of_add? {c c' : Container} {key : Segment} {v : Tree} (h : c.add? key v = some c')
    {e : Segment × Tree} (he : e ∈ c'.entries) : e.2 = v ∨ ∃ x ∈ c.entries, x.2 = e.2 :=
  value_of_extend (eq_extend_of_add? h ▸ he)

/-- There is room in the container for entries that are written to it in order: an object has none of
their names, and an array gets them under the numbers from `number` on. -/
def Room (c : Container) (number : Option Nat) (entries : List (Segment × Tree)) : Prop :=
  match c, number with
  | .object members, none => ∀ x ∈ entries, members.contains x.1.token = false
  | .array items, some n => n = items.length ∧ n + entries.length ≤ indexBound
  | _, _ => False

/-- The key under which an entry is written: its own, or the number that is next. -/
def keyFor (number : Option Nat) (key : Segment) : Segment := (number.map .index).getD key

variable {c : Container} {number : Option Nat} {x : Segment × Tree}
  {rest : List (Segment × Tree)}

theorem Room.skip (h : c.Room number (x :: rest)) : c.Room number rest := by
  cases c <;> cases number
  · exact fun y hy => h y (List.mem_cons_of_mem _ hy)
  · exact h
  · exact h
  · refine ⟨h.1, ?_⟩
    have := h.2
    rw [List.length_cons] at this
    omega

theorem Room.add? (h : c.Room number (x :: rest)) (v : Tree) :
    c.add? (keyFor number x.1) v = some (c.extend [(keyFor number x.1, v)]) := by
  cases c <;> cases number
  · have hx := h x List.mem_cons_self
    simp [Container.add?, extend, keyFor, hx]
  · exact h.elim
  · exact h.elim
  · obtain ⟨rfl, hle⟩ := h
    rw [List.length_cons] at hle
    rename_i items
    have hindex : (Segment.index items.length).asIndex = some items.length :=
      if_pos (by omega)
    simp [Container.add?, extend, keyFor, hindex]

theorem Room.next (h : c.Room number (x :: rest)) (hn : ((x :: rest).map (·.1.token)).Nodup)
    (v : Tree) : (c.extend [(keyFor number x.1, v)]).Room (number.map (· + 1)) rest := by
  cases c <;> cases number
  · rw [List.map_cons, List.nodup_cons] at hn
    intro y hy
    have hne : x.1.token ≠ y.1.token :=
      fun heq => hn.1 (heq ▸ List.mem_map_of_mem (f := fun z : Segment × Tree => z.1.token) hy)
    have hold := h y (List.mem_cons_of_mem _ hy)
    simp [keyFor, OrderedMap.contains_insert, hne, hold]
  · exact h.elim
  · exact h.elim
  · obtain ⟨rfl, hle⟩ := h
    rw [List.length_cons] at hle
    refine ⟨by simp, ?_⟩
    show _ + 1 + _ ≤ _
    omega

/-- The kind of the container decides whether entries are numbered. -/
theorem Room.isArray_eq (h : c.Room number rest) : c.isArray = number.isSome := by
  cases c <;> cases number <;> first | rfl | exact h.elim

theorem Room.size_eq {n : Nat} (h : c.Room (some n) rest) : c.size = n := by
  cases c
  · exact h.elim
  · exact h.1.symm

end Container

namespace Heap

variable {h h' : Heap}

/-- The tree is a scalar, or it names a container that exists. -/
def Has (h : Heap) (t : Tree) : Prop := ∀ id, t.id? = some id → id < h.size

/-- Containers hold only trees that exist. -/
def Closed (h : Heap) : Prop := ∀ id c, h.get? id = some c → ∀ e ∈ c.entries, h.Has e.2

theorem forall_get?_iff {P : Container → Prop} :
    (∀ id c, h.get? id = some c → P c) ↔ ∀ c ∈ h.cells.toList, P c := by
  constructor
  · intro hall c hc
    obtain ⟨id, hid⟩ := Array.mem_iff_getElem?.mp (Array.mem_toList_iff.mp hc)
    exact hall id c hid
  · intro hall id c hc
    exact hall c (Array.mem_toList_iff.mpr (Array.mem_of_getElem? hc))

instance (h : Heap) (t : Tree) : Decidable (h.Has t) :=
  decidable_of_iff (∀ id ∈ t.id?, id < h.size) Iff.rfl

instance (h : Heap) : Decidable h.Closed := decidable_of_iff _ forall_get?_iff.symm

instance (h : Heap) : Decidable h.Indexable :=
  have : DecidablePred Container.Indexable := fun c => match c with
    | .object _ => isTrue trivial
    | .array items => inferInstanceAs (Decidable (items.length ≤ indexBound))
  decidable_of_iff _ forall_get?_iff.symm

/-- The heap with new containers. -/
def append (h : Heap) (cs : List Container) : Heap := ⟨h.cells ++ cs.toArray⟩

theorem ext_get? (hget : ∀ id, h.get? id = h'.get? id) : h = h' := by
  have hcells : h.cells = h'.cells := Array.ext_getElem? hget
  cases h
  cases h'
  exact congrArg Heap.mk hcells

@[simp] theorem size_append (h : Heap) (cs : List Container) :
    (h.append cs).size = h.size + cs.length := by
  simp [append, size]

theorem get?_append (h : Heap) (cs : List Container) (id : ContainerId) :
    (h.append cs).get? id = if id < h.size then h.get? id else cs[id - h.size]? := by
  simp only [append, get?, size, Array.getElem?_append, List.getElem?_toArray]
  rfl

@[simp] theorem append_nil (h : Heap) : h.append [] = h := by
  simp [append]

theorem append_append (h : Heap) (cs ds : List Container) :
    (h.append cs).append ds = h.append (cs ++ ds) := by
  simp [append]

theorem alloc_eq_append (h : Heap) (c : Container) : (h.alloc c).2 = h.append [c] := by
  simp [append, alloc]

/-- Writing to an old container and adding new ones commute. -/
theorem set_append (h : Heap) (cs : List Container) {id : ContainerId} (hid : id < h.size)
    (c : Container) : (h.append cs).set id c = (h.set id c).append cs := by
  apply ext_get?
  intro i
  simp only [get?_set, get?_append, size_append, size_set]
  by_cases hi : i < h.size
  · by_cases heq : id = i
    · simp [heq, hi, Nat.lt_of_lt_of_le hi (Nat.le_add_right _ _)]
    · simp [heq, hi]
  · have hne : id ≠ i := by
      rintro rfl
      exact hi hid
    simp [hne, hi]

/-- Writing to the first of the new containers. -/
theorem set_append_cons (h : Heap) (c d : Container) (cs : List Container) :
    (h.append (c :: cs)).set h.size d = h.append (d :: cs) := by
  apply ext_get?
  intro i
  simp only [get?_set, get?_append, size_append, List.length_cons]
  by_cases hi : i < h.size
  · have hne : h.size ≠ i := Nat.ne_of_gt hi
    simp [hne, hi]
  · by_cases heq : h.size = i
    · simp [← heq]
    · have hpos : 0 < i - h.size := Nat.sub_pos_of_lt (Nat.lt_of_le_of_ne (Nat.le_of_not_lt hi) heq)
      obtain ⟨k, hk⟩ := Nat.exists_eq_add_of_lt hpos
      simp [heq, hi, hk]

theorem set_set (h : Heap) (id : ContainerId) (c d : Container) :
    (h.set id c).set id d = h.set id d := by
  apply ext_get?
  intro i
  simp only [get?_set, size_set]
  by_cases heq : id = i <;> by_cases hi : i < h.size <;> simp [heq, hi]

/-- Writing what stands there already changes nothing. -/
theorem set_eq_self {id : ContainerId} {c : Container} (hc : h.get? id = some c) : h.set id c = h := by
  apply ext_get?
  intro i
  rw [get?_set]
  split
  · rename_i hi
    rw [← hi.1, hc]
  · rfl

theorem grows_append (h : Heap) (cs : List Container) : h.Grows (h.append cs) := by
  refine ⟨by simp, fun id hid => ?_⟩
  rw [get?_append, if_pos hid]

theorem Grows.trans {h'' : Heap} (h₁ : h.Grows h') (h₂ : h'.Grows h'') : h.Grows h'' :=
  ⟨Nat.le_trans h₁.1 h₂.1, fun id hid =>
    (h₂.2 id (Nat.lt_of_lt_of_le hid h₁.1)).trans (h₁.2 id hid)⟩

theorem Has.mono (ht : h.Has t) (hle : h.size ≤ h'.size) : h'.Has t :=
  fun id hid => Nat.lt_of_lt_of_le (ht id hid) hle

/-- A container that is not in the heap has no entries. -/
theorem entries_of_size_le {id : ContainerId} (hid : h.size ≤ id) : h.entries (.container id) = [] := by
  have hnone : h.get? id = none := Array.getElem?_eq_none hid
  simp [Heap.entries, container?, Tree.id?, hnone]

theorem Closed.entries (hc : h.Closed) (t : Tree) : ∀ e ∈ h.entries t, h.Has e.2 := by
  intro e he
  unfold Heap.entries at he
  cases hd : h.container? t with
  | none => rw [hd] at he; cases he
  | some c =>
    rw [hd] at he
    obtain ⟨id, _, hid⟩ := Option.bind_eq_some_iff.mp hd
    exact hc id c hid e he

/-- What a container has under a segment is one of its entries. -/
theorem exists_entry_of_member? {t v : Tree} {s : Segment} (hm : h.member? t s = some v) :
    ∃ e ∈ h.entries t, e.1.token = s.token ∧ e.2 = v := by
  obtain ⟨id, c, rfl, hc, hv⟩ := get?_of_member? hm
  rw [entries_container hc]
  cases c with
  | object members =>
    exact ⟨_, List.mem_map_of_mem (OrderedMap.mem_of_find hv), rfl, rfl⟩
  | array items =>
    obtain ⟨i, hi, hitem⟩ := Option.bind_eq_some_iff.mp hv
    refine ⟨(.index (0 + i), v), Container.mem_indexed.mpr ⟨i, hitem, rfl⟩, ?_, rfl⟩
    rw [Nat.zero_add, (Segment.asIndex_eq_some_iff.mp hi).1]
    rfl

theorem closed_append (hc : h.Closed) {cs : List Container}
    (hcs : ∀ c ∈ cs, ∀ e ∈ c.entries, (h.append cs).Has e.2) : (h.append cs).Closed := by
  intro id c hget e he
  rw [get?_append] at hget
  split at hget
  · exact (hc id c hget e he).mono (by simp)
  · exact hcs c (List.mem_of_getElem? hget) e he

theorem indexable_append (hi : h.Indexable) {cs : List Container} (hcs : ∀ c ∈ cs, c.Indexable) :
    (h.append cs).Indexable := by
  intro id c hget
  rw [get?_append] at hget
  split at hget
  · exact hi id c hget
  · exact hcs c (List.mem_of_getElem? hget)

/-- What stands in a heap still has the same entries when the heap grows. -/
theorem Grows.entries_eq (hg : h.Grows h') {t : Tree} (ht : h.Has t) :
    h'.entries t = h.entries t := by
  cases hid : t.id? with
  | none => simp [Heap.entries, container?, hid]
  | some id => simp [Heap.entries, container?, hid, hg.2 id (ht id hid)]

theorem Grows.isArray_eq (hg : h.Grows h') {t : Tree} (ht : h.Has t) :
    h'.isArray t = h.isArray t := by
  cases hid : t.id? with
  | none => simp [Heap.isArray, container?, hid]
  | some id => simp [Heap.isArray, container?, hid, hg.2 id (ht id hid)]

end Heap

end Lineage
