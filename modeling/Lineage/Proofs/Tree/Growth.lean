import Lineage.Proofs.Tree.Members

/-! Heaps that only gain containers and members. What a pointer resolves to stays what it is, since
no member is ever taken away or replaced. -/

namespace Lineage

namespace Heap

variable {h h' : Heap}

/-- Every item of every array has an index. -/
def Indexable (h : Heap) : Prop := ∀ id c, h.get? id = some c → c.Indexable

/-- The old containers are as they were, and there may be new ones. -/
def Grows (h h' : Heap) : Prop := h.size ≤ h'.size ∧ ∀ id < h.size, h'.get? id = h.get? id

/-- The old containers still have the members they had, and may have more. -/
def Extends (h h' : Heap) : Prop :=
  ∀ id c, h.get? id = some c →
    ∃ c', h'.get? id = some c' ∧ ∀ s t, c.member? s = some t → c'.member? s = some t

theorem lt_size_of_get? {id : ContainerId} {c : Container} (hc : h.get? id = some c) :
    id < h.size := by
  obtain ⟨hlt, _⟩ := Array.getElem?_eq_some_iff.mp hc
  exact hlt

theorem member?_congr (h : Heap) (t : Tree) {s u : Segment} (hs : s.token = u.token) :
    h.member? t s = h.member? t u := by
  unfold member?
  cases h.container? t with
  | none => rfl
  | some c => exact c.member?_congr hs

theorem nodup_tokens_entries (h : Heap) (t : Tree) :
    ((h.entries t).map (·.1.token)).Nodup := by
  unfold entries
  cases h.container? t with
  | none => exact .nil
  | some c => exact c.nodup_tokens_entries

theorem member?_container {id : ContainerId} {c : Container} (hc : h.get? id = some c)
    (s : Segment) : h.member? (.container id) s = c.member? s := by
  simp [member?, container?, Tree.id?, hc]

theorem entries_container {id : ContainerId} {c : Container} (hc : h.get? id = some c) :
    h.entries (.container id) = c.entries := by
  simp [entries, container?, Tree.id?, hc]

theorem isArray_container {id : ContainerId} {c : Container} (hc : h.get? id = some c) :
    h.isArray (.container id) = c.isArray := by
  simp [isArray, container?, Tree.id?, hc]

theorem get?_of_member? {t u : Tree} {s : Segment} (hm : h.member? t s = some u) :
    ∃ id c, t = .container id ∧ h.get? id = some c ∧ c.member? s = some u := by
  cases t with
  | container id =>
    cases hc : h.get? id with
    | none => simp [member?, container?, Tree.id?, hc] at hm
    | some c => exact ⟨id, c, rfl, hc, by rwa [member?_container hc] at hm⟩
  | _ => simp [member?, container?, Tree.id?] at hm

theorem follow?_append (h : Heap) (t : Tree) (ss us : List Segment) :
    h.follow? t (ss ++ us) = (h.follow? t ss).bind fun u => h.follow? u us := by
  induction ss generalizing t with
  | nil => rfl
  | cons s rest ih =>
    simp only [List.cons_append, follow?]
    cases h.member? t s with
    | none => rfl
    | some u => exact ih u

/-- Following segments goes by their tokens. -/
theorem follow?_congr (h : Heap) (t : Tree) {ss us : List Segment}
    (hs : ss.map Segment.token = us.map Segment.token) : h.follow? t ss = h.follow? t us := by
  induction ss generalizing t us with
  | nil =>
    rw [List.map_nil, eq_comm, List.map_eq_nil_iff] at hs
    rw [hs]
  | cons s rest ih =>
    cases us with
    | nil => simp at hs
    | cons u urest =>
      rw [List.map_cons, List.map_cons, List.cons.injEq] at hs
      simp only [follow?, h.member?_congr t hs.1]
      congr 1
      funext v
      exact ih v hs.2

/-- A way below the root leads through a member. -/
theorem exists_member?_of_resolve? {t : Tree} {p : Pointer} (hp : p.isRoot = false)
    (hr : (h.resolve? t p).isSome) :
    ∃ key, (h.member? t key).isSome ∧ [key.token] <+: p.tokens := by
  obtain ⟨segments⟩ := p
  cases segments with
  | nil => cases hp
  | cons key rest =>
    obtain ⟨v, hv⟩ := Option.isSome_iff_exists.mp hr
    obtain ⟨u, hu, _⟩ := Option.bind_eq_some_iff.mp hv
    exact ⟨key, Option.isSome_iff_exists.mpr ⟨u, hu⟩, rest.map Segment.token, rfl⟩

theorem Grows.refl (h : Heap) : h.Grows h := ⟨Nat.le_refl _, fun _ _ => rfl⟩

theorem Grows.get? (hg : h.Grows h') {id : ContainerId} {c : Container} (hc : h.get? id = some c) :
    h'.get? id = some c := by
  rw [hg.2 id (lt_size_of_get? hc), hc]

theorem Grows.extends (hg : h.Grows h') : h.Extends h' :=
  fun _ c hc => ⟨c, hg.get? hc, fun _ _ ht => ht⟩

theorem Grows.member? (hg : h.Grows h') {id : ContainerId} (hid : id < h.size) (s : Segment) :
    h'.member? (.container id) s = h.member? (.container id) s := by
  simp only [Heap.member?, container?, Tree.id?, Option.bind_some, hg.2 id hid]

theorem Extends.trans {h'' : Heap} (h₁ : h.Extends h') (h₂ : h'.Extends h'') : h.Extends h'' := by
  intro id c hc
  obtain ⟨c', hc', hm'⟩ := h₁ id c hc
  obtain ⟨c'', hc'', hm''⟩ := h₂ id c' hc'
  exact ⟨c'', hc'', fun s t ht => hm'' s t (hm' s t ht)⟩

theorem Extends.member? (hx : h.Extends h') {t u : Tree} {s : Segment}
    (hm : h.member? t s = some u) : h'.member? t s = some u := by
  obtain ⟨id, c, rfl, hc, hs⟩ := get?_of_member? hm
  obtain ⟨c', hc', hall⟩ := hx id c hc
  rw [member?_container hc']
  exact hall s u hs

theorem Extends.follow? (hx : h.Extends h') {t u : Tree} {ss : List Segment}
    (hf : h.follow? t ss = some u) : h'.follow? t ss = some u := by
  induction ss generalizing t with
  | nil => exact hf
  | cons s rest ih =>
    obtain ⟨v, hv, hrest⟩ := Option.bind_eq_some_iff.mp hf
    exact Option.bind_eq_some_iff.mpr ⟨v, hx.member? hv, ih hrest⟩

theorem grows_alloc (h : Heap) (c : Container) : h.Grows (h.alloc c).2 := by
  refine ⟨by simp, fun id hid => ?_⟩
  rw [get?_alloc, if_neg (Nat.ne_of_lt hid)]

theorem Indexable.alloc (hi : h.Indexable) {c : Container} (hc : c.Indexable) :
    (h.alloc c).2.Indexable := by
  intro id d hd
  rw [get?_alloc] at hd
  split at hd
  · cases hd; exact hc
  · exact hi id d hd

/-- Adding a member takes nothing away. -/
theorem extends_set {id : ContainerId} {c c' : Container} {key : Segment} {v : Tree}
    (hc : h.get? id = some c) (hadd : c.add? key v = some c') : h.Extends (h.set id c') := by
  intro i d hd
  rw [get?_set]
  by_cases hi : id = i
  · subst hi
    cases hc.symm.trans hd
    refine ⟨c', if_pos ⟨rfl, lt_size_of_get? hc⟩, fun s t ht => ?_⟩
    rw [Container.member?_add? hadd, if_neg, ht]
    intro hs
    have hnone := Container.member?_eq_none_of_add? hadd
    rw [← c.member?_congr hs, ht] at hnone
    cases hnone
  · exact ⟨d, by rw [if_neg fun hh => hi hh.1, hd], fun _ _ ht => ht⟩

theorem member?_set {id : ContainerId} {c c' : Container} {key : Segment} {v : Tree}
    (hc : h.get? id = some c) (hadd : c.add? key v = some c') (i : ContainerId) (s : Segment) :
    (h.set id c').member? (.container i) s =
      if i = id ∧ s.token = key.token then some v else h.member? (.container i) s := by
  by_cases hi : i = id
  · subst hi
    have hset : (h.set i c').get? i = some c' := by
      rw [get?_set, if_pos ⟨rfl, lt_size_of_get? hc⟩]
    rw [member?_container hset, member?_container hc, Container.member?_add? hadd]
    simp
  · rw [if_neg fun hh => hi hh.1]
    simp only [member?, container?, Tree.id?, Option.bind_some, get?_set]
    rw [if_neg fun hh => hi hh.1.symm]

theorem Indexable.set (hi : h.Indexable) {id : ContainerId} {c c' : Container} {key : Segment}
    {v : Tree} (hc : h.get? id = some c) (hadd : c.add? key v = some c') :
    (h.set id c').Indexable := by
  intro i d hd
  rw [get?_set] at hd
  split at hd
  · cases hd; exact (hi id c hc).add? hadd
  · exact hi i d hd

end Heap

end Lineage
