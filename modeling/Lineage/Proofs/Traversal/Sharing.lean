import Lineage.Proofs.Traversal.Listing

/-! Sharing and what it costs. A traversal withholds members where a container is held again, so it
withholds none exactly when no container with members stands at two places; every place of the tree is
then a node of the traversal. -/

namespace Lineage.Heap

/-- No container that has members stands at two places of the tree. -/
def Unshared (h : Heap) (t : Tree) : Prop :=
  ∀ (id : ContainerId) (p q : Pointer), h.length (.container id) ≠ 0 →
    h.resolve? t p = some (.container id) → h.resolve? t q = some (.container id) → (p == q) = true

variable {h : Heap} {base : Pointer} {ids ids' : List ContainerId} {entries : List (Segment × Tree)}
  {nodes : List Node} {t v : Tree} {s : Segment} {root : ContainerId}

theorem length_ne_zero_of_member? (hm : h.member? t s = some v) : h.length t ≠ 0 := by
  obtain ⟨e, he, _⟩ := exists_entry_of_member? hm
  rw [← length_entries]
  exact Nat.ne_of_gt (List.length_pos_of_mem he)

/-- A container is exposed at one node only. -/
theorem ExposedFirst.eq_of_exposed (hf : ExposedFirst ids nodes) {m n : Node} (hm : m ∈ nodes)
    (hn : n ∈ nodes) (hvalue : m.value = n.value) (hmx : m.exposed = true) (hnx : n.exposed = true) :
    m = n := by
  -- whichever comes later would hold what an earlier node holds
  have hlater : ∀ {before after : List Node} {k l : Node}, ExposedFirst ids (before ++ l :: after) →
      l.exposed = true → k.value = l.value → k ∉ before := by
    intro before after k l hf hl hsame hk
    obtain ⟨id, hid, _, hnone⟩ := hf.exposed_iff.mp hl
    exact hnone k hk (hsame.trans hid)
  obtain ⟨before, after, rfl⟩ := List.append_of_mem hn
  rcases List.mem_append.mp hm with hm | hm
  · exact absurd hm (hlater hf hnx hvalue)
  rcases List.mem_cons.mp hm with rfl | hm
  · rfl
  · obtain ⟨between, last, rfl⟩ := List.append_of_mem hm
    rw [← List.cons_append, ← List.append_assoc] at hf
    exact absurd (List.mem_append_right _ List.mem_cons_self) (hlater hf hmx hvalue.symm)

/-- Where no members are withheld, whatever is found at or below an entry is a node. -/
theorem Enumerates.exists_node (hen : h.Enumerates base ids entries nodes ids')
    (hall : ∀ n ∈ nodes, h.isPruned n = false) {x : Segment × Tree} (hx : x ∈ entries)
    {rest : List Segment} (hv : h.follow? x.2 rest = some v) :
    ∃ n ∈ nodes, n.value = v ∧
      n.pointer.tokens = base.tokens ++ x.1.token :: rest.map Segment.token := by
  induction hen generalizing x rest with
  | nil => cases hx
  | @withheld base _ _ y _ _ _ _ ih =>
    have hy := hall _ List.mem_cons_self
    rcases List.mem_cons.mp hx with rfl | hx
    · cases rest with
      | nil => exact ⟨_, List.mem_cons_self, Option.some.inj hv, Pointer.tokens_append _ _⟩
      | cons s rest =>
        obtain ⟨u, hu, _⟩ := Option.bind_eq_some_iff.mp hv
        obtain ⟨id, _, hvalue, _⟩ := get?_of_member? hu
        rw [(h.isPruned_eq _).mpr ⟨id, hvalue, length_ne_zero_of_member? hu, rfl⟩] at hy
        cases hy
    · obtain ⟨n, hn, hplace⟩ := ih (fun n hn => hall n (List.mem_cons_of_mem _ hn)) hx hv
      exact ⟨n, List.mem_cons_of_mem _ hn, hplace⟩
  | exposed _ _ _ ihbelow ihrest =>
    rcases List.mem_cons.mp hx with rfl | hx
    · cases rest with
      | nil => exact ⟨_, List.mem_cons_self, Option.some.inj hv, Pointer.tokens_append _ _⟩
      | cons s rest =>
        obtain ⟨u, hu, hrest⟩ := Option.bind_eq_some_iff.mp hv
        obtain ⟨e, he, htoken, rfl⟩ := exists_entry_of_member? hu
        obtain ⟨n, hn, hvalue, hplace⟩ := ihbelow
          (fun n hn => hall n (List.mem_cons_of_mem _ (List.mem_append_left _ hn))) he hrest
        refine ⟨n, List.mem_cons_of_mem _ (List.mem_append_left _ hn), hvalue, ?_⟩
        rw [hplace, htoken, Pointer.tokens_append, List.append_assoc]
        rfl
    · obtain ⟨n, hn, hplace⟩ := ihrest
        (fun n hn => hall n (List.mem_cons_of_mem _ (List.mem_append_right _ hn))) hx hv
      exact ⟨n, List.mem_cons_of_mem _ (List.mem_append_right _ hn), hplace⟩

/-- Where no members are withheld, the nodes are all places below the root. -/
theorem exists_node_of_resolve? (hall : ∀ n ∈ h.descendants (.container root), h.isPruned n = false) {p : Pointer}
    (hp : p.isRoot = false) (hv : h.resolve? (.container root) p = some v) :
    ∃ n ∈ h.descendants (.container root), n.value = v ∧ n.pointer.tokens = p.tokens := by
  obtain ⟨_, hen⟩ := h.exists_enumeration root
  obtain ⟨segments⟩ := p
  cases segments with
  | nil => cases hp
  | cons s rest =>
    obtain ⟨u, hu, hrest⟩ := Option.bind_eq_some_iff.mp hv
    obtain ⟨e, he, htoken, rfl⟩ := exists_entry_of_member? hu
    obtain ⟨n, hn, hvalue, hplace⟩ := hen.exists_node hall he hrest
    refine ⟨n, hn, hvalue, ?_⟩
    rw [hplace, htoken]
    rfl

/-- A node that keeps the members of its container exposes it, so the container is not the root. -/
theorem Enumerates.exposed_of_kept {id : ContainerId}
    (hen : h.Enumerates .root [root] (h.entries (.container root)) nodes ids') {n : Node}
    (hn : n ∈ nodes) (hkept : h.isPruned n = false) (hvalue : n.value = .container id)
    (hlength : h.length (.container id) ≠ 0) : n.exposed = true ∧ id ≠ root := by
  rw [← Bool.not_eq_true, isPruned_eq] at hkept
  have hexposed : n.exposed = true := by
    rw [← Bool.not_eq_false]
    exact fun hwithheld => hkept ⟨id, hvalue, by rwa [hvalue], hwithheld⟩
  obtain ⟨before, after, hsplit⟩ := List.append_of_mem hn
  obtain ⟨j, hj, hnew, _⟩ := (hsplit ▸ hen.exposedFirst).exposed_iff.mp hexposed
  rw [hvalue] at hj
  cases hj
  exact ⟨hexposed, by simpa using hnew⟩

theorem Unshared.isPruned_eq_false (hu : h.Unshared (.container root)) (hi : h.Indexable) {n : Node}
    (hn : n ∈ h.descendants (.container root)) : h.isPruned n = false := by
  obtain ⟨_, hen⟩ := h.exists_enumeration root
  rw [Bool.eq_false_iff]
  intro hpruned
  have hplace := h.resolve?_of_mem_descendants root hi hn
  obtain ⟨before, after, hsplit⟩ := List.append_of_mem hn
  obtain ⟨id, hvalue, hlength, hheld⟩ := (hen.isPruned_iff hsplit).mp hpruned
  rw [hvalue] at hplace hlength
  rcases hheld with rfl | ⟨m, hm, hsame⟩
  · have hroot := Pointer.beq_iff.mp (hu id n.pointer .root hlength hplace rfl)
    exact h.tokens_ne_nil_of_mem_descendants id hn hroot
  · have hmem : m ∈ h.descendants (.container root) := hsplit ▸ List.mem_append_left _ hm
    have hplace' := h.resolve?_of_mem_descendants root hi hmem
    rw [hsame] at hplace'
    have hdistinct := h.pairwise_pointers_descendants root
    rw [hsplit, List.pairwise_append] at hdistinct
    exact hdistinct.2.2 m hm n List.mem_cons_self
      (Pointer.beq_iff.mp (hu id m.pointer n.pointer hlength hplace' hplace))

theorem unshared_of_kept (hall : ∀ n ∈ h.descendants (.container root), h.isPruned n = false) :
    h.Unshared (.container root) := by
  obtain ⟨_, hen⟩ := h.exists_enumeration root
  intro id p q hlength hp hq
  have hroot : ∀ {p : Pointer}, p.isRoot = true →
      h.resolve? (.container root) p = some (.container id) → id = root := by
    rintro ⟨_ | _⟩ hp hv
    · cases hv
      rfl
    · cases hp
  have hnode : ∀ {p : Pointer}, p.isRoot = false →
      h.resolve? (.container root) p = some (.container id) →
      ∃ n ∈ h.descendants (.container root), n.value = .container id ∧
        n.pointer.tokens = p.tokens ∧ n.exposed = true ∧ id ≠ root := by
    intro p hp hv
    obtain ⟨n, hn, hvalue, hplace⟩ := exists_node_of_resolve? hall hp hv
    exact ⟨n, hn, hvalue, hplace, hen.exposed_of_kept hn (hall n hn) hvalue hlength⟩
  rw [Pointer.beq_iff]
  cases hpr : p.isRoot <;> cases hqr : q.isRoot
  · obtain ⟨m, hm, hmv, hmp, hmx, _⟩ := hnode hpr hp
    obtain ⟨n, hn, hnv, hnp, hnx, _⟩ := hnode hqr hq
    have hsame : m = n := hen.exposedFirst.eq_of_exposed hm hn (hmv.trans hnv.symm) hmx hnx
    rw [← hmp, ← hnp, hsame]
  · obtain ⟨_, _, _, _, _, hne⟩ := hnode hpr hp
    exact absurd (hroot hqr hq) hne
  · obtain ⟨_, _, _, _, _, hne⟩ := hnode hqr hq
    exact absurd (hroot hpr hp) hne
  · rw [Pointer.isRoot, List.isEmpty_iff] at hpr hqr
    rw [Pointer.tokens, Pointer.tokens, hpr, hqr]

/-- Members are withheld nowhere exactly when no container with members stands at two places. -/
theorem unshared_iff (hi : h.Indexable) : h.Unshared (.container root) ↔
    ∀ n ∈ h.descendants (.container root), h.isPruned n = false :=
  ⟨fun hu _ hn => hu.isPruned_eq_false hi hn, unshared_of_kept⟩

end Lineage.Heap
