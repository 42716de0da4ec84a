import Lineage.Proofs.Supply
import Lineage.Proofs.Traversal.Pruning
import Lineage.Proofs.Tree.Copies
import Lineage.Proofs.Tree.Reachable

/-! Deep copies are isomorphic to what they copy. While a copy is made, its containers are of two kinds:
those that are still being filled, and those that are complete, which hold the copies of all members of
the container they copy. A step adds complete containers and changes none, so in the end all of them are
complete, and the copied containers correspond one to one to their copies. -/

namespace Lineage

variable {h h' : Heap} {t v : Tree} {i i' j j' id copy : ContainerId} {c : Container} {depth : Nat}
  {entries : List (Segment × Tree)}

/-- The trees are the same scalar, or containers that are related. -/
def Tree.Corresponds (R : ContainerId → ContainerId → Prop) : Tree → Tree → Prop
  | .container i, .container j => R i j
  | t, u => t = u

/-- The containers of two trees correspond one to one, with the trees themselves: members stand under the
same names in the same order, items stand in the same order, and scalars are the same. -/
structure Heap.Isomorphic (h : Heap) (t : Tree) (h' : Heap) (t' : Tree)
    (R : ContainerId → ContainerId → Prop) : Prop where
  trees : t.Corresponds R t'
  covers : ∀ i, h.Reaches t (.container i) ↔ ∃ j, R i j
  covered : ∀ j, h'.Reaches t' (.container j) ↔ ∃ i, R i j
  functional : ∀ {i j j'}, R i j → R i j' → j = j'
  injective : ∀ {i i' j}, R i j → R i' j → i = i'
  kinds : ∀ {i j}, R i j → h'.isArray (.container j) = h.isArray (.container i)
  members : ∀ {i j}, R i j → List.Forall₂ (fun e e' => e.1 = e'.1 ∧ e.2.Corresponds R e'.2)
    (h.entries (.container i)) (h'.entries (.container j))

namespace Container

/-- Items are numbered in order. -/
theorem indexed_map_snd {start : Nat} {items : List Tree} {es : List (Segment × Tree)}
    (hkeys : es.map Prod.fst = (indexed start items).map Prod.fst) :
    indexed start (es.map Prod.snd) = es := by
  induction items generalizing start es with
  | nil =>
    obtain rfl : es = [] := List.map_eq_nil_iff.mp hkeys
    rfl
  | cons t ts ih =>
    cases es with
    | nil => cases hkeys
    | cons e es =>
      rw [indexed, List.map_cons, List.map_cons, List.cons.injEq] at hkeys
      have hkey : Segment.index start = e.1 := hkeys.1.symm
      rw [List.map_cons, indexed, ih hkeys.2, hkey]

/-- Copies of all entries that are stored one by one in an empty container of the same kind are the
entries of that container. -/
theorem entries_extend_emptyOf (c : Container) {es : List (Segment × Tree)}
    (hkeys : es.map Prod.fst = c.entries.map Prod.fst) :
    ((emptyOf c.isArray).extend es).entries = es := by
  cases c with
  | object members =>
    have hkey : ∀ e ∈ es, (Segment.key e.1.token, e.2) = e := by
      intro e he
      have hmem : e.1 ∈ es.map Prod.fst := List.mem_map_of_mem he
      rw [hkeys] at hmem
      obtain ⟨x, hx, hxe⟩ := List.mem_map.mp hmem
      obtain ⟨m, _, rfl⟩ := List.mem_map.mp hx
      exact Prod.ext (by rw [← hxe]; rfl) rfl
    have hnodup : ((es.map fun e => (e.1.token, e.2)).map Prod.fst).Nodup := by
      have hn := nodup_tokens_entries (.object members)
      rw [← Function.comp_def Segment.token Prod.fst, ← List.map_map, ← hkeys, List.map_map] at hn
      rwa [List.map_map]
    have hfold : (emptyOf false).extend es =
        .object (.ofList (es.map fun e => (e.1.token, e.2))) := by
      rw [OrderedMap.ofList, List.foldl_map]
      rfl
    rw [isArray, hfold, entries, OrderedMap.entries_ofList_of_nodup hnodup, List.map_map]
    exact (List.map_congr_left hkey).trans (List.map_id es)
  | array items =>
    have hitems : (emptyOf true).extend es = .array (es.map Prod.snd) := rfl
    rw [isArray, hitems, entries, indexed_map_snd hkeys]

end Container

namespace Copying

variable {s s' u : Copying}

/-- What a tree is copied to: scalars as they are, and containers that have a copy to it. -/
def image? (s : Copying) : Tree → Option Tree
  | .container id => (s.copies.get? id).map .container
  | t => some t

/-- Entries and those of the copy. -/
def Mirrors (s : Copying) : List (Segment × Tree) → List (Segment × Tree) → Prop :=
  List.Forall₂ fun e e' => e.1 = e'.1 ∧ s.image? e.2 = some e'.2

/-- A container and its copy, which has all members. -/
def Complete (h : Heap) (s : Copying) (i j : ContainerId) : Prop :=
  ∃ c c', h.get? i = some c ∧ s.heap.get? j = some c' ∧ c'.isArray = c.isArray ∧
    s.Mirrors c.entries c'.entries

/-- Copying goes on: what had a copy keeps it, and the new copies are complete. -/
structure Continues (h : Heap) (s s' : Copying) : Prop where
  keeps : ∀ {i j}, s.copies.get? i = some j → s'.copies.get? i = some j
  complete : ∀ {i j}, s'.copies.get? i = some j →
    s.copies.get? i = some j ∨ s.heap.size ≤ j ∧ s'.Complete h i j
  injective : ∀ {i i' j}, s'.copies.get? i = some j → s'.copies.get? i' = some j →
    i = i' ∨ s.copies.get? i = some j ∧ s.copies.get? i' = some j

theorem image?_mono (hkeeps : ∀ {i j}, s.copies.get? i = some j → s'.copies.get? i = some j)
    (ht : s.image? t = some v) : s'.image? t = some v := by
  cases t with
  | container id =>
    obtain ⟨j, hj, rfl⟩ := Option.map_eq_some_iff.mp ht
    exact Option.map_eq_some_iff.mpr ⟨j, hkeeps hj, rfl⟩
  | _ => exact ht

theorem image?_eq_container (ht : s.image? t = some (.container j)) :
    ∃ i, t = .container i ∧ s.copies.get? i = some j := by
  cases t with
  | container i =>
    obtain ⟨k, hk, heq⟩ := Option.map_eq_some_iff.mp ht
    cases heq
    exact ⟨i, rfl, hk⟩
  | _ => cases ht

theorem Mirrors.mono {es es' : List (Segment × Tree)}
    (hkeeps : ∀ {i j}, s.copies.get? i = some j → s'.copies.get? i = some j)
    (hm : s.Mirrors es es') : s'.Mirrors es es' :=
  hm.imp fun _ _ he => ⟨he.1, image?_mono hkeeps he.2⟩

theorem Mirrors.keys_eq {es es' : List (Segment × Tree)} (hm : s.Mirrors es es') :
    es'.map Prod.fst = es.map Prod.fst := by
  induction hm with
  | nil => rfl
  | cons he _ ih => rw [List.map_cons, List.map_cons, he.1, ih]

theorem Complete.mono (hkeeps : ∀ {i j}, s.copies.get? i = some j → s'.copies.get? i = some j)
    (hcell : ∀ c, s.heap.get? j = some c → s'.heap.get? j = some c) (hc : s.Complete h i j) :
    s'.Complete h i j := by
  obtain ⟨c, c', hi, hj, harray, hm⟩ := hc
  exact ⟨c, c', hi, hcell c' hj, harray, hm.mono hkeeps⟩

theorem Complete.lt_size (hc : s.Complete h i j) : j < s.heap.size := by
  obtain ⟨_, _, _, hj, _⟩ := hc
  exact Heap.lt_size_of_get? hj

/-- All copies exist. -/
def Bounded (s : Copying) : Prop := ∀ i j, s.copies.get? i = some j → j < s.heap.size

theorem Continues.refl (h : Heap) (s : Copying) : s.Continues h s where
  keeps := id
  complete := .inl
  injective hi hi' := .inr ⟨hi, hi'⟩

/-- Complete copies stay complete while other containers are changed. -/
theorem Continues.trans (h₁ : s.Continues h u) (h₂ : u.Continues h s')
    (hgrows : s.heap.size ≤ u.heap.size)
    (hframe : ∀ j c, s.heap.size ≤ j → u.heap.get? j = some c → s'.heap.get? j = some c) :
    s.Continues h s' where
  keeps hj := h₂.keeps (h₁.keeps hj)
  complete hj := by
    rcases h₂.complete hj with hj | ⟨hle, hdone⟩
    · rcases h₁.complete hj with hj | ⟨hle, hdone⟩
      · exact .inl hj
      · exact .inr ⟨hle, hdone.mono h₂.keeps fun c => hframe _ c hle⟩
    · exact .inr ⟨Nat.le_trans hgrows hle, hdone⟩
  injective hi hi' := by
    rcases h₂.injective hi hi' with heq | ⟨hi, hi'⟩
    · exact .inl heq
    · exact h₁.injective hi hi'

theorem Continues.bounded (hs : s.Continues h s') (hgrows : s.heap.size ≤ s'.heap.size)
    (hb : s.Bounded) : s'.Bounded := by
  intro i j hj
  rcases hs.complete hj with hj | ⟨_, hdone⟩
  · exact Nat.lt_of_lt_of_le (hb i j hj) hgrows
  · exact hdone.lt_size

/-- Copying a tree makes a copy of it, whatever other copies are still being filled. -/
def Succeeds (h : Heap) (depth : Nat) (inside : Tree → Copying → Option (Tree × Copying)) : Prop :=
  ∀ t s, h.Grows s.heap → s.Bounded → h.Has t → h.unyielded s.copies.keys ≤ depth →
    ∃ v s', inside t s = some (v, s') ∧ s.heap.Grows s'.heap ∧ s.Continues h s' ∧ s'.image? t = some v

theorem keys_subset (hkeeps : ∀ {i j}, s.copies.get? i = some j → s'.copies.get? i = some j) :
    s.copies.keys ⊆ s'.copies.keys := by
  intro i hi
  rw [OrderedMap.mem_keys_iff] at hi ⊢
  obtain ⟨j, hj⟩ := Option.isSome_iff_exists.mp hi
  rw [OrderedMap.contains, hkeeps hj]
  rfl

/-- All entries are copied into the container, one after the other. -/
theorem fill_succeeds {inside : Tree → Copying → Option (Tree × Copying)}
    (hinside : Succeeds h depth inside) (hg : h.Grows s.heap) (hb : s.Bounded) (hcopy : h.size ≤ copy)
    (hc : s.heap.get? copy = some c) (hhas : ∀ e ∈ entries, h.Has e.2)
    (hdepth : h.unyielded s.copies.keys ≤ depth) :
    ∃ s' es, fill inside copy entries s = some s' ∧ s.heap.GrowsBesides copy s'.heap ∧
      s.Continues h s' ∧ s'.heap.get? copy = some (c.extend es) ∧ s'.Mirrors entries es := by
  induction entries generalizing s c with
  | nil => exact ⟨s, [], rfl, (Heap.Grows.refl _).besides copy, .refl h s, by rwa [Container.extend_nil], .nil⟩
  | cons entry rest ih =>
    rw [List.forall_mem_cons] at hhas
    obtain ⟨v, u, hu, hgu, hcu, himage⟩ := hinside entry.2 s hg hb hhas.1 hdepth
    -- the copy of the first member is stored, and the others follow
    have hstore := u.heap.growsBesides_store copy entry.1 v
    have hcell : u.heap.get? copy = some c := hgu.get? hc
    obtain ⟨s', es, hfill, hgs, hcs, hget, hm⟩ := ih (s := { u with heap := u.heap.store copy entry.1 v })
      ((hg.trans hgu).besides_grows hcopy hstore)
      (fun i j hj => Nat.lt_of_lt_of_le (hcu.bounded hgu.1 hb i j hj) hstore.1)
      (Heap.get?_store hcell entry.1 v) hhas.2
      (Nat.le_trans (Heap.unyielded_mono (keys_subset hcu.keeps)) hdepth)
    refine ⟨s', (entry.1, v) :: es, fill_cons_eq_some_iff.mpr ⟨v, u, hu, hfill⟩,
      (hgu.besides copy).trans (hstore.trans hgs), ?_, ?_, ?_⟩
    · refine hcu.trans ⟨hcs.keeps, fun hj => ?_, hcs.injective⟩ hgu.1 fun j d hj hd => ?_
      · exact (hcs.complete hj).imp_right (And.imp_left (Nat.le_trans hstore.1))
      · have hne : j ≠ copy := Nat.ne_of_gt (Nat.lt_of_lt_of_le (Heap.lt_size_of_get? hc) hj)
        rw [(hstore.trans hgs).2 j (Heap.lt_size_of_get? hd) hne, hd]
    · rw [hget, Container.store_eq, ← Container.extend_cons]
    · exact .cons ⟨rfl, image?_mono hcs.keeps himage⟩ hm

theorem Bounded.entered (hb : s.Bounded) (id : ContainerId) (c : Container) : (s.entered id c).Bounded := by
  intro i j hj
  rw [heap_entered, Heap.size_alloc]
  rw [copy?_entered] at hj
  split at hj
  · cases hj
    exact Nat.lt_succ_self _
  · exact Nat.lt_succ_of_lt (hb i j hj)

theorem keys_subset_entered (s : Copying) (id : ContainerId) (c : Container) :
    id :: s.copies.keys ⊆ (s.entered id c).copies.keys := by
  intro i hi
  rw [List.mem_cons, OrderedMap.mem_keys_iff, OrderedMap.contains] at hi
  rw [OrderedMap.mem_keys_iff, OrderedMap.contains, copy?_entered]
  split
  · rfl
  · exact hi.resolve_left fun heq => ‹¬id = i› heq.symm

/-- A container that is new to the copy gets a complete copy. -/
theorem Continues.enter (hb : s.Bounded) (hnew : s.copies.get? id = none)
    (hs : (s.entered id c).Continues h s') (hdone : s'.Complete h id s.heap.size) :
    s.Continues h s' where
  keeps {i j} hj := by
    have hne : id ≠ i := by
      rintro rfl
      cases hnew.symm.trans hj
    exact hs.keeps (by rw [copy?_entered, if_neg hne, hj])
  complete {i j} hj := by
    rcases hs.complete hj with hj | ⟨hle, hcomplete⟩
    · rw [copy?_entered] at hj
      split at hj
      · subst id
        cases hj
        exact .inr ⟨Nat.le_refl _, hdone⟩
      · exact .inl hj
    · exact .inr ⟨Nat.le_trans (s.grows_entered id c).1 hle, hcomplete⟩
  injective {i i' j} hi hi' := by
    rcases hs.injective hi hi' with heq | ⟨hi, hi'⟩
    · exact .inl heq
    · -- the copy is none of those that there were
      have hold : ∀ k, s.copies.get? k ≠ some s.heap.size :=
        fun k hk => Nat.lt_irrefl _ (hb k _ hk)
      rw [copy?_entered] at hi hi'
      split at hi <;> split at hi'
      · exact .inl (‹id = i›.symm.trans ‹id = i'›)
      · cases hi
        exact absurd hi' (hold i')
      · cases hi'
        exact absurd hi (hold i)
      · exact .inr ⟨hi, hi'⟩

/-- Scalars and containers that have a copy are copied at once. -/
theorem succeeds_of_new (hnew : ∀ id s, h.Grows s.heap → s.Bounded → id < h.size →
      s.copies.get? id = none → h.unyielded (id :: s.copies.keys) < depth →
      ∃ v s', copyWithin depth (.container id) s = some (v, s') ∧ s.heap.Grows s'.heap ∧
        s.Continues h s' ∧ s'.image? (.container id) = some v) :
    Succeeds h depth (copyWithin depth) := by
  intro t s hg hb ht hdepth
  cases hid : t.id? with
  | none =>
    refine ⟨t, s, copyWithin_scalar hid _ _, .refl _, .refl h s, ?_⟩
    cases t with
    | container id => cases hid
    | _ => rfl
  | some id =>
    obtain rfl := Tree.eq_container_of_id? hid
    cases hcopy : s.copies.get? id with
    | some copy =>
      refine ⟨.container copy, s, copyWithin_known hcopy _, .refl _, .refl h s, ?_⟩
      rw [image?, hcopy]
      rfl
    | none =>
      have hkeys : id ∉ s.copies.keys := by
        rw [OrderedMap.mem_keys_iff, OrderedMap.contains, hcopy]
        exact Bool.false_ne_true
      exact hnew id s hg hb (ht id rfl) hcopy
        (Nat.lt_of_lt_of_le (Heap.unyielded_cons_lt (ht id rfl) hkeys) hdepth)

/-- No path enters more containers than there are, so every tree is copied within that depth. -/
theorem copyWithin_succeeds (hc : h.Closed) (depth : Nat) : Succeeds h depth (copyWithin depth) := by
  induction depth with
  | zero => exact succeeds_of_new fun _ _ _ _ _ _ hdepth => absurd hdepth (Nat.not_lt_zero _)
  | succ depth ih =>
    refine succeeds_of_new fun id s hg hb hlt hnew hdepth => ?_
    obtain ⟨c, hget⟩ : ∃ c, h.get? id = some c := ⟨_, Array.getElem?_eq_getElem hlt⟩
    obtain ⟨s', es, hfill, hgs, hcs, hcell, hm⟩ := fill_succeeds ih (hg.trans (s.grows_entered id c))
      (hb.entered id c) hg.1 (s.get?_entered id c) (hc id c hget)
      (Nat.le_of_lt_succ (Nat.lt_of_le_of_lt (Heap.unyielded_mono (s.keys_subset_entered id c)) hdepth))
    have hdone : s'.Complete h id s.heap.size :=
      ⟨c, _, hget, hcell, by simp,
        by rwa [c.entries_extend_emptyOf hm.keys_eq]⟩
    have hcopies := hcs.enter hb hnew hdone
    refine ⟨.container s.heap.size, s', ?_, (s.grows_entered id c).besides_grows (Nat.le_refl _) hgs,
      hcopies, ?_⟩
    · rw [copyWithin_new hnew (hg.get? hget), hfill]
      rfl
    · rw [image?, hcs.keeps (i := id) (j := s.heap.size)]
      · rfl
      · rw [copy?_entered, if_pos rfl]

/-- When all copies are complete, the entries of a tree mirror those of what it is copied to. -/
theorem mirrors_entries (hall : ∀ i j, s.copies.get? i = some j → s.Complete h i j)
    (ht : s.image? t = some v) : s.Mirrors (h.entries t) (s.heap.entries v) := by
  cases t with
  | container i =>
    obtain ⟨j, hj, rfl⟩ := Option.map_eq_some_iff.mp ht
    obtain ⟨c, c', hc, hc', _, hm⟩ := hall i j hj
    rwa [Heap.entries_container hc, Heap.entries_container hc']
  | _ =>
    cases ht
    exact .nil

/-- What can be reached from a tree has a copy, which can be reached from that of the tree. -/
theorem exists_image_of_reaches (hall : ∀ i j, s.copies.get? i = some j → s.Complete h i j)
    (ht : s.image? t = some v) {u : Tree} (hu : h.Reaches t u) :
    ∃ w, s.image? u = some w ∧ s.heap.Reaches v w := by
  induction hu with
  | self => exact ⟨v, ht, .self⟩
  | member _ hx ih =>
    obtain ⟨w, himage, hw⟩ := ih
    obtain ⟨x', hx', hxx'⟩ := exists_of_mem_left (mirrors_entries hall himage) hx
    exact ⟨x'.2, hxx'.2, hw.member hx'⟩

/-- What can be reached from the copy of a tree is the copy of something that the tree reaches. -/
theorem exists_reaches_of_image (hall : ∀ i j, s.copies.get? i = some j → s.Complete h i j)
    (ht : s.image? t = some v) {w : Tree} (hw : s.heap.Reaches v w) :
    ∃ u, s.image? u = some w ∧ h.Reaches t u := by
  induction hw with
  | self => exact ⟨t, ht, .self⟩
  | member _ hx ih =>
    obtain ⟨u, himage, hu⟩ := ih
    obtain ⟨x', hx', hxx'⟩ := exists_of_mem_right (mirrors_entries hall himage) hx
    exact ⟨x'.2, hxx'.2, hu.member hx'⟩

/-- When all copies are complete, the containers that a tree reaches correspond to their copies. -/
theorem isomorphic (hall : ∀ i j, s.copies.get? i = some j → s.Complete h i j)
    (hinj : ∀ i i' j, s.copies.get? i = some j → s.copies.get? i' = some j → i = i')
    (ht : s.image? t = some v) : h.Isomorphic t s.heap v
      (fun i j => h.Reaches t (.container i) ∧ s.copies.get? i = some j) := by
  have hcorresponds : ∀ {u w : Tree}, h.Reaches t u → s.image? u = some w →
      u.Corresponds (fun i j => h.Reaches t (.container i) ∧ s.copies.get? i = some j) w := by
    intro u w hu hw
    cases u with
    | container i =>
      obtain ⟨j, hj, rfl⟩ := Option.map_eq_some_iff.mp hw
      exact ⟨hu, hj⟩
    | _ => exact Option.some.inj hw
  constructor
  case trees => exact hcorresponds .self ht
  case covers =>
    refine fun i => ⟨fun hi => ?_, fun ⟨_, hi, _⟩ => hi⟩
    obtain ⟨w, hw, _⟩ := exists_image_of_reaches hall ht hi
    obtain ⟨j, hj, _⟩ := Option.map_eq_some_iff.mp hw
    exact ⟨j, hi, hj⟩
  case covered =>
    refine fun j => ⟨fun hj => ?_, fun ⟨i, hi, hij⟩ => ?_⟩
    · obtain ⟨u, hu, hreach⟩ := exists_reaches_of_image hall ht hj
      obtain ⟨i, rfl, hi⟩ := image?_eq_container hu
      exact ⟨i, hreach, hi⟩
    · obtain ⟨w, hw, hreach⟩ := exists_image_of_reaches hall ht hi
      rw [image?, hij] at hw
      cases hw
      exact hreach
  case functional =>
    rintro i j j' ⟨_, hj⟩ ⟨_, hj'⟩
    exact Option.some.inj (hj.symm.trans hj')
  case injective =>
    rintro i i' j ⟨_, hi⟩ ⟨_, hi'⟩
    exact hinj i i' j hi hi'
  case kinds =>
    rintro i j ⟨_, hij⟩
    obtain ⟨c, c', hc, hc', hkind, _⟩ := hall i j hij
    rw [Heap.isArray_container hc, Heap.isArray_container hc', hkind]
  case members =>
    rintro i j ⟨hi, hij⟩
    have hentries : s.Mirrors (h.entries (.container i)) (s.heap.entries (.container j)) :=
      mirrors_entries hall (by rw [image?, hij]; rfl)
    have hreached : ∀ e ∈ h.entries (.container i), h.Reaches t e.2 := fun e he => hi.member he
    refine ((List.forall₂_and_left _ _).mpr ⟨hreached, hentries⟩).imp ?_
    rintro e e' ⟨he, hkey, hvalue⟩
    exact ⟨hkey, hcorresponds he hvalue⟩

end Copying

/-- A deep copy ends within the depth of the heap, whatever can be reached, and changes no container.
The containers of the copy are all new, and they correspond one to one to those of the tree. -/
theorem Heap.duplicate_isomorphic (hc : h.Closed) (ht : h.Has t) :
    (∀ depth, h.size ≤ depth → ∃ s, Copying.copyWithin depth t ⟨h, .empty⟩ = some ((h.duplicate t).1, s) ∧
      s.heap = (h.duplicate t).2) ∧
    h.Grows (h.duplicate t).2 ∧
    (∀ j, (h.duplicate t).2.Reaches (h.duplicate t).1 (.container j) →
      h.size ≤ j ∧ j < (h.duplicate t).2.size) ∧
    ∃ R, h.Isomorphic t (h.duplicate t).2 (h.duplicate t).1 R := by
  have hbounded : (⟨h, .empty⟩ : Copying).Bounded := fun _ _ hj => nomatch hj
  obtain ⟨v, s, hcopy, hgrows, hcont, himage⟩ := Copying.copyWithin_succeeds hc h.size t ⟨h, .empty⟩
    (.refl h) hbounded ht (h.unyielded_le _)
  have hwithin : Copying.copyWithin h.walkDepth t ⟨h, .empty⟩ = some (v, s) :=
    Copying.copyWithin_mono (Nat.le_succ h.size) hcopy
  have hduplicate : h.duplicate t = (v, s.heap) := by rw [duplicate, hwithin]
  rw [hduplicate]
  -- nothing had a copy at the start, so all copies are complete
  have hdone : ∀ i j, s.copies.get? i = some j → h.size ≤ j ∧ s.Complete h i j :=
    fun i j hj => (hcont.complete hj).resolve_left fun hold => nomatch hold
  have hinj : ∀ i i' j, s.copies.get? i = some j → s.copies.get? i' = some j → i = i' :=
    fun i i' j hi hi' => (hcont.injective hi hi').resolve_right fun hold => nomatch hold.1
  have hiso := Copying.isomorphic (fun i j hj => (hdone i j hj).2) hinj himage
  refine ⟨fun depth hle => ⟨s, Copying.copyWithin_mono hle hcopy, rfl⟩, hgrows, fun j hj => ?_, _, hiso⟩
  obtain ⟨i, _, hij⟩ := (hiso.covered j).mp hj
  exact ⟨(hdone i j hij).1, (hdone i j hij).2.lt_size⟩

/-- An object that holds itself and, twice, an array: both ways into the copy of the array lead to one
new container. -/
theorem Heap.duplicate_isomorphic_cycle :
    let h : Heap := ⟨#[.object (.ofList [("own", .container 0), ("left", .container 1),
      ("right", .container 1)]), .array [.bool true, .container 0]]⟩
    h.Closed ∧ h.Has (.container 0) ∧ (h.duplicate (.container 0)).2.size = 4 ∧
      ∃ R, h.Isomorphic (.container 0) (h.duplicate (.container 0)).2 (h.duplicate (.container 0)).1 R := by
  intro h
  have hc : h.Closed := by decide
  have ht : h.Has (.container 0) := by decide
  exact ⟨hc, ht, by decide, (duplicate_isomorphic hc ht).2.2.2⟩

end Lineage
