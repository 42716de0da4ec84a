import Lineage.Proofs.Traversal.Enumeration
import Lineage.Proofs.Tree.Reachable
import Mathlib.Algebra.BigOperators.Group.Finset.Basic
import Mathlib.Algebra.Order.BigOperators.Group.Finset

/-! What a complete traversal lists. Each container that can be reached is exposed at the first node that
holds it, its members are listed below that node and nowhere else, and so there are as many nodes as
there are members of distinct containers, however many ways lead to them. -/

namespace Lineage

theorem Pointer.parent?_append (p : Pointer) (s : Segment) : (p.append s).parent? = some p := by
  simp [Pointer.parent?, Pointer.append]

/-- The members that are listed directly below a pointer. -/
def listedBelow (p : Pointer) (nodes : List Node) : List (Segment × Tree) :=
  (nodes.filter fun n => n.pointer.parent? = some p).map fun n => (n.key, n.value)

theorem Pointer.append_ne (p : Pointer) (s : Segment) : p.append s ≠ p := by
  intro heq
  have hlength := congrArg (·.segments.length) heq
  simp [Pointer.append] at hlength

section ListedBelow

variable (p : Pointer) (n : Node) (rest nodes after : List Node)

theorem listedBelow_cons : listedBelow p (n :: rest) =
    if n.pointer.parent? = some p then (n.key, n.value) :: listedBelow p rest
    else listedBelow p rest := by
  by_cases hp : n.pointer.parent? = some p <;> simp [listedBelow, hp]

theorem listedBelow_append :
    listedBelow p (nodes ++ after) = listedBelow p nodes ++ listedBelow p after := by
  simp [listedBelow]

end ListedBelow

namespace Heap

theorem nodup_keys_entries (h : Heap) (t : Tree) : ((h.entries t).map (·.1)).Nodup := by
  have hn := h.nodup_tokens_entries t
  rw [← Function.comp_def Segment.token Prod.fst, ← List.map_map] at hn
  exact hn.of_map

theorem length_entries (h : Heap) (t : Tree) : (h.entries t).length = h.length t := by
  unfold entries length
  cases h.container? t with
  | none => rfl
  | some c => exact c.length_entries

/-- All members of all containers. -/
theorem memberCount_eq (h : Heap) :
    h.memberCount = ∑ id ∈ Finset.range h.size, h.length (.container id) := by
  have hsum : ∀ cells : List Container, (cells.map Container.size).sum =
      ∑ i ∈ Finset.range cells.length, ((cells[i]?).map Container.size).getD 0 := by
    intro cells
    induction cells with
    | nil => rfl
    | cons c cells ih =>
      rw [List.map_cons, List.sum_cons, ih, List.length_cons, Finset.sum_range_succ', Nat.add_comm]
      simp
  rw [memberCount, ← List.sum_eq_foldl, hsum]
  simp [length, container?, Tree.id?, get?, size]

theorem sum_length_le (h : Heap) (ids : Finset ContainerId) :
    ∑ id ∈ ids, h.length (.container id) ≤ h.memberCount := by
  rw [memberCount_eq]
  refine Finset.sum_le_sum_of_ne_zero fun id _ hne => ?_
  rw [Finset.mem_range]
  by_contra hid
  rw [← length_entries, entries_of_size_le (Nat.le_of_not_lt hid)] at hne
  exact hne rfl

variable {h : Heap} {t : Tree} {base : Pointer} {ids ids' : List ContainerId}
  {entries : List (Segment × Tree)} {nodes : List Node}

section ExposedFirst

/-- Each node is exposed exactly when it holds a container that was not held before. -/
def ExposedFirst (ids : List ContainerId) : List Node → Prop
  | [] => True
  | n :: rest => (n.exposed = true ↔ ∃ id, n.value.id? = some id ∧ id ∉ ids) ∧
    ExposedFirst (n.value.id?.toList ++ ids) rest

theorem ExposedFirst.congr (hf : ExposedFirst ids nodes) (hsame : ∀ id, id ∈ ids' ↔ id ∈ ids) :
    ExposedFirst ids' nodes := by
  induction nodes generalizing ids ids' with
  | nil => trivial
  | cons n rest ih =>
    refine ⟨?_, ih hf.2 fun id => ?_⟩
    · simp only [hsame]
      exact hf.1
    · rw [List.mem_append, List.mem_append, hsame]

theorem ExposedFirst.append {after : List Node} (hf : ExposedFirst ids nodes)
    (hafter : ExposedFirst ids' after)
    (hids : ∀ id, id ∈ ids' ↔ id ∈ ids ∨ ∃ n ∈ nodes, n.value = .container id) :
    ExposedFirst ids (nodes ++ after) := by
  induction nodes generalizing ids with
  | nil => exact hafter.congr fun id => by simp [hids]
  | cons n rest ih =>
    refine ⟨hf.1, ih hf.2 fun id => ?_⟩
    rw [hids, List.mem_append, Option.mem_toList, Tree.id?_eq_some_iff]
    simp only [List.mem_cons, exists_eq_or_imp]
    tauto

/-- A node is exposed exactly when no earlier node holds its container, and nothing held it before. -/
theorem ExposedFirst.exposed_iff {before after : List Node} {n : Node}
    (hf : ExposedFirst ids (before ++ n :: after)) :
    n.exposed = true ↔ ∃ id, n.value = .container id ∧ id ∉ ids ∧
      ∀ m ∈ before, m.value ≠ .container id := by
  induction before generalizing ids with
  | nil =>
    rw [hf.1]
    simp [Tree.id?_eq_some_iff]
  | cons m rest ih =>
    rw [ih hf.2]
    refine exists_congr fun id => and_congr_right fun _ => ?_
    rw [List.mem_append, Option.mem_toList, Tree.id?_eq_some_iff]
    simp only [List.mem_cons, forall_eq_or_imp]
    tauto

end ExposedFirst

namespace Enumerates

/-- By the end the containers are held that were held before or that a node holds. -/
theorem mem_iff (hen : h.Enumerates base ids entries nodes ids') (id : ContainerId) :
    id ∈ ids' ↔ id ∈ ids ∨ ∃ n ∈ nodes, n.value = .container id := by
  induction hen with
  | nil => simp
  | @withheld _ ids _ x _ _ hx _ ih =>
    rw [ih]
    simp only [List.mem_cons, exists_eq_or_imp]
    refine ⟨fun hmem => hmem.imp_right .inr, ?_⟩
    rintro (hmem | hvalue | hmem)
    · exact .inl hmem
    · exact .inl (hx id (by rw [hvalue]; rfl))
    · exact .inr hmem
  | exposed _ _ _ ihbelow ihrest =>
    rw [ihrest, ihbelow]
    simp only [List.mem_cons, List.mem_append, exists_eq_or_imp, Tree.container.injEq]
    grind

/-- There are as many nodes as entries and members of containers that are exposed. -/
theorem length_add (hen : h.Enumerates base ids entries nodes ids') :
    nodes.length + ∑ id ∈ ids.toFinset, h.length (.container id) =
      entries.length + ∑ id ∈ ids'.toFinset, h.length (.container id) := by
  induction hen with
  | nil => rfl
  | withheld _ _ ih =>
    simp only [List.length_cons]
    omega
  | exposed hid _ _ ihbelow ihrest =>
    rw [List.toFinset_cons, Finset.sum_insert (mt List.mem_toFinset.mp hid), h.length_entries]
      at ihbelow
    simp only [List.length_cons, List.length_append]
    omega

/-- What is enumerated can be reached. -/
theorem reaches (hen : h.Enumerates base ids entries nodes ids')
    (hentries : ∀ x ∈ entries, h.Reaches t x.2) : ∀ n ∈ nodes, h.Reaches t n.value := by
  induction hen with
  | nil => exact fun n hn => absurd hn List.not_mem_nil
  | withheld _ _ ih =>
    intro n hn
    rcases List.mem_cons.mp hn with rfl | hn
    · exact hentries _ List.mem_cons_self
    · exact ih (fun x hx => hentries x (List.mem_cons_of_mem _ hx)) n hn
  | exposed _ _ _ ihbelow ihrest =>
    have hhead := hentries _ List.mem_cons_self
    intro n hn
    rcases List.mem_cons.mp hn with rfl | hn
    · exact hhead
    · rcases List.mem_append.mp hn with hn | hn
      · exact ihbelow (fun x hx => hhead.member hx) n hn
      · exact ihrest (fun x hx => hentries x (List.mem_cons_of_mem _ hx)) n hn

theorem mem_of_entry (hen : h.Enumerates base ids entries nodes ids') {x : Segment × Tree}
    (hx : x ∈ entries) {id : ContainerId} (hid : x.2 = .container id) : id ∈ ids' := by
  induction hen with
  | nil => cases hx
  | withheld hwithheld hrest ih =>
    rcases List.mem_cons.mp hx with rfl | hx
    · exact hrest.subset (hwithheld id (by rw [hid]; rfl))
    · exact ih hx
  | exposed _ hbelow hrest _ ih =>
    rcases List.mem_cons.mp hx with rfl | hx
    · cases hid
      exact hrest.subset (hbelow.subset List.mem_cons_self)
    · exact ih hx

/-- The members of containers that are exposed are held as well. -/
theorem closed (hen : h.Enumerates base ids entries nodes ids') {id : ContainerId} (hid : id ∈ ids')
    (hnew : id ∉ ids) {x : Segment × Tree} (hx : x ∈ h.entries (.container id)) {j : ContainerId}
    (hj : x.2 = .container j) : j ∈ ids' := by
  induction hen with
  | nil => exact absurd hid hnew
  | withheld _ _ ih => exact ih hid hnew
  | @exposed _ ids ids₁ _ _ i _ _ _ _ hbelow hrest ihbelow ihrest =>
    by_cases hmem : id ∈ ids₁
    · refine hrest.subset ?_
      by_cases hi : id = i
      · subst hi
        exact hbelow.mem_of_entry hx hj
      · exact ihbelow hmem (by simp [hi, hnew])
    · exact ihrest hid hmem

/-- Containers are exposed where they are held first. -/
theorem exposedFirst (hen : h.Enumerates base ids entries nodes ids') : ExposedFirst ids nodes := by
  induction hen with
  | nil => trivial
  | @withheld _ ids _ x _ _ hx _ ih =>
    refine ⟨?_, ih.congr fun id => ?_⟩
    · simp only [Bool.false_eq_true, false_iff]
      rintro ⟨id, hvalue, hid⟩
      exact hid (hx id hvalue)
    · rw [List.mem_append, Option.mem_toList]
      exact ⟨fun hmem => hmem.elim (hx id) fun hmem => hmem, .inr⟩
  | exposed hid hbelow _ ihbelow ihrest =>
    exact ⟨by simp [Tree.id?, hid], ihbelow.append ihrest hbelow.mem_iff⟩

/-- Nodes stand at or below the entries. -/
theorem exists_below (hen : h.Enumerates base ids entries nodes ids') {n : Node} (hn : n ∈ nodes) :
    ∃ x ∈ entries, ∃ rest, n.pointer.segments = base.segments ++ x.1 :: rest := by
  induction hen with
  | nil => cases hn
  | withheld _ _ ih =>
    rcases List.mem_cons.mp hn with rfl | hn
    · exact ⟨_, List.mem_cons_self, [], rfl⟩
    · obtain ⟨x, hx, hrest⟩ := ih hn
      exact ⟨x, List.mem_cons_of_mem _ hx, hrest⟩
  | @exposed _ _ _ _ key _ _ _ _ _ _ _ ihbelow ihrest =>
    rcases List.mem_cons.mp hn with rfl | hn
    · exact ⟨_, List.mem_cons_self, [], rfl⟩
    · rcases List.mem_append.mp hn with hn | hn
      · obtain ⟨y, _, rest, hsegments⟩ := ihbelow hn
        refine ⟨_, List.mem_cons_self, y.1 :: rest, ?_⟩
        rw [hsegments, Pointer.append, List.append_assoc]
        rfl
      · obtain ⟨x, hx, hrest⟩ := ihrest hn
        exact ⟨x, List.mem_cons_of_mem _ hx, hrest⟩

/-- Nothing is listed below a pointer that is elsewhere. -/
theorem listedBelow_eq_nil (hen : h.Enumerates base ids entries nodes ids') {p : Pointer}
    (hbase : p ≠ base) (hp : ∀ x ∈ entries, ¬base.segments ++ [x.1] <+: p.segments) :
    listedBelow p nodes = [] := by
  rw [listedBelow, List.map_eq_nil_iff, List.filter_eq_nil_iff]
  intro n hn
  rw [decide_eq_true_eq]
  intro hparent
  obtain ⟨x, hx, rest, hsegments⟩ := hen.exists_below hn
  have hp' : p = ⟨base.segments ++ (x.1 :: rest).dropLast⟩ := by
    simpa [Pointer.parent?, hsegments, List.dropLast_append_of_ne_nil] using hparent.symm
  subst hp'
  cases rest with
  | nil => exact hbase (by simp)
  | cons s rest => exact hp x hx ⟨(s :: rest).dropLast, by simp⟩

/-- The entries are what is listed below their base. -/
theorem listedBelow_base (hen : h.Enumerates base ids entries nodes ids') :
    listedBelow base nodes = entries := by
  induction hen with
  | nil => rfl
  | withheld _ _ ih =>
    rw [listedBelow_cons, if_pos (Pointer.parent?_append _ _), ih]
  | @exposed base _ _ _ key id _ _ _ _ hbelow _ _ ih =>
    have hinside := hbelow.listedBelow_eq_nil (p := base) (Ne.symm (Pointer.append_ne base key))
      fun x _ hpre => by simpa [Pointer.append] using hpre.length_le
    rw [listedBelow_cons, if_pos (Pointer.parent?_append _ _), listedBelow_append, hinside, ih]
    rfl

/-- Nothing is listed at or below another member. -/
theorem listedBelow_of_notMem (hen : h.Enumerates base ids entries nodes ids') {p : Pointer}
    {key : Segment} {rest : List Segment} (hp : p.segments = base.segments ++ key :: rest)
    (hkey : key ∉ entries.map (·.1)) : listedBelow p nodes = [] := by
  refine hen.listedBelow_eq_nil ?_ fun x hx hpre => ?_
  · rintro rfl
    simp at hp
  · rw [hp, List.prefix_append_right_inj, List.cons_prefix_cons] at hpre
    exact hkey (hpre.1 ▸ List.mem_map_of_mem hx)

/-- The nodes below one member list nothing at or below another. -/
theorem listedBelow_of_ne {key s : Segment}
    (hen : h.Enumerates (base.append key) ids entries nodes ids') {p : Pointer} {rest : List Segment}
    (hp : p.segments = base.segments ++ s :: rest) (hne : s ≠ key) : listedBelow p nodes = [] := by
  refine hen.listedBelow_eq_nil ?_ fun x _ hpre => ?_
  · rintro rfl
    rw [Pointer.append, List.append_cancel_left_eq] at hp
    exact hne (List.cons.inj hp).1.symm
  · rw [hp, Pointer.append, List.append_assoc, List.prefix_append_right_inj, List.singleton_append,
      List.cons_prefix_cons] at hpre
    exact hne hpre.1.symm

/-- Below a node its members are listed, if it is exposed. -/
theorem listedBelow_of_mem (hen : h.Enumerates base ids entries nodes ids')
    (hn : (entries.map (·.1)).Nodup) {n : Node} (hmem : n ∈ nodes) :
    listedBelow n.pointer nodes = if n.exposed then h.entries n.value else [] := by
  have hbase : n.pointer ≠ base := by
    obtain ⟨x, _, rest, hsegments⟩ := hen.exists_below hmem
    rintro rfl
    simp at hsegments
  induction hen with
  | nil => cases hmem
  | @withheld base _ _ x rest after _ hrest ih =>
    obtain ⟨hkey, hn⟩ := List.nodup_cons.mp hn
    rw [listedBelow_cons, Pointer.parent?_append, if_neg (by simpa using Ne.symm hbase)]
    rcases List.mem_cons.mp hmem with rfl | hmem
    · have hplace : (base.append x.1).segments = base.segments ++ [x.1] := rfl
      exact hrest.listedBelow_of_notMem hplace hkey
    · exact ih hn hmem hbase
  | @exposed base _ _ _ key id _ _ _ _ hbelow hrest ihbelow ihrest =>
    obtain ⟨hkey, hn⟩ := List.nodup_cons.mp hn
    rw [listedBelow_cons, Pointer.parent?_append, if_neg (by simpa using Ne.symm hbase),
      listedBelow_append]
    rcases List.mem_cons.mp hmem with rfl | hmem
    · have hplace : (base.append key).segments = base.segments ++ [key] := rfl
      rw [hbelow.listedBelow_base, hrest.listedBelow_of_notMem hplace hkey, List.append_nil]
      rfl
    rcases List.mem_append.mp hmem with hmem | hmem
    · obtain ⟨y, _, rest, hsegments⟩ := hbelow.exists_below hmem
      have hinside : n.pointer ≠ base.append key := by
        intro heq
        rw [heq] at hsegments
        simp at hsegments
      have hplace : n.pointer.segments = base.segments ++ key :: y.1 :: rest := by
        rw [hsegments, Pointer.append, List.append_assoc]
        rfl
      rw [hrest.listedBelow_of_notMem hplace hkey, List.append_nil]
      exact ihbelow (h.nodup_keys_entries _) hmem hinside
    · obtain ⟨y, hy, rest, hsegments⟩ := hrest.exists_below hmem
      have hne : y.1 ≠ key := fun heq => hkey (List.mem_map.mpr ⟨y, hy, heq⟩)
      rw [hbelow.listedBelow_of_ne hsegments hne, List.nil_append]
      exact ihrest hn hmem hbase

end Enumerates

/-- The nodes of a complete traversal from a container. The loop over open levels and the walk through
the members of each node come to an end with them, and so does the walk that is bounded by the number
of containers. -/
structure Completes (h : Heap) (root : ContainerId) (nodes : List Node) : Prop where
  drains : h.Drains [(h.visit (.container root)).1] (h.visit (.container root)).2 nodes
  walksTo : ∃ e, h.WalksTo (h.visit (.container root)).1 (h.visit (.container root)).2 nodes e
  walk : (h.walk (h.visit (.container root)).1 (h.visit (.container root)).2).1 = nodes
  /-- There are as many nodes as members of distinct containers that can be reached. -/
  length_eq : ∃ ids : Finset ContainerId,
    (∀ id, id ∈ ids ↔ h.Reaches (.container root) (.container id)) ∧
      nodes.length = ∑ id ∈ ids, h.length (.container id)
  /-- The members of the root are listed below the root. -/
  listed_root : listedBelow .root nodes = h.entries (.container root)
  /-- The members of any other container are listed below the first node that holds it, and below no
  other one. -/
  listed : ∀ id, id ≠ root → h.Reaches (.container root) (.container id) →
    ∃ before n after, nodes = before ++ n :: after ∧ n.value = .container id ∧ n.exposed = true ∧
      listedBelow n.pointer nodes = h.entries (.container id) ∧
      (∀ m ∈ before, m.value ≠ .container id) ∧
      ∀ m ∈ after, m.value = .container id → m.exposed = false ∧ listedBelow m.pointer nodes = []
  /-- Members are withheld where a container with members is the root, or where an earlier node holds
  it. -/
  pruned : ∀ before n after, nodes = before ++ n :: after → (h.isPruned n = true ↔
    ∃ id, n.value = .container id ∧ h.length n.value ≠ 0 ∧
      (id = root ∨ ∃ m ∈ before, m.value = .container id))

/-- There are as many nodes as members of containers that are held. -/
theorem Enumerates.length_eq {root : ContainerId}
    (hen : h.Enumerates .root [root] (h.entries (.container root)) nodes ids') :
    nodes.length = ∑ id ∈ ids'.toFinset, h.length (.container id) := by
  have hadd := hen.length_add
  rw [List.toFinset_cons, List.toFinset_nil, insert_empty_eq, Finset.sum_singleton,
    h.length_entries] at hadd
  omega

/-- The walk that is bounded by the number of containers follows the enumeration of a container. -/
theorem Enumerates.exists_walked_root {root : ContainerId}
    (hen : h.Enumerates .root [root] (h.entries (.container root)) nodes ids') :
    ∃ e, h.Walked h.walkDepth .root (OrderedMap.empty.insert root .root)
      (h.entries (.container root)) nodes ids' e :=
  hen.exists_walked (Entrances.tracks_empty.insert root .root) (Entrances.clear_root root _)
    (h.nodup_tokens_entries _) ((h.unyielded_le [root]).trans (Nat.le_succ _))

theorem Enumerates.drains_root {root : ContainerId}
    (hen : h.Enumerates .root [root] (h.entries (.container root)) nodes ids') :
    h.Drains [(h.visit (.container root)).1] (h.visit (.container root)).2 nodes := by
  obtain ⟨e, hwalked⟩ := hen.exists_walked_root
  have hd := hwalked.walksTo.drains (Drains.nil : h.Drains [] e [])
  rwa [List.append_nil] at hd

/-- The list of all nodes is the enumeration of a container: the members of distinct containers bound
the steps of the loop. -/
theorem Enumerates.descendants_eq {root : ContainerId}
    (hen : h.Enumerates .root [root] (h.entries (.container root)) nodes ids') :
    h.descendants (.container root) = nodes := by
  refine hen.drains_root.drain_eq ?_
  have hle := h.sum_length_le ids'.toFinset
  rw [← hen.length_eq] at hle
  rw [List.length_singleton]
  omega

theorem exists_enumeration (h : Heap) (root : ContainerId) : ∃ ids,
    h.Enumerates .root [root] (h.entries (.container root)) (h.descendants (.container root)) ids := by
  obtain ⟨nodes, ids, hen⟩ := h.exists_enumerates .root [root] (h.entries (.container root))
  exact ⟨ids, hen.descendants_eq ▸ hen⟩

theorem Enumerates.mem_iff_reaches {root : ContainerId}
    (hen : h.Enumerates .root [root] (h.entries (.container root)) nodes ids') (id : ContainerId) :
    id ∈ ids' ↔ h.Reaches (.container root) (.container id) := by
  constructor
  · rw [hen.mem_iff, List.mem_singleton]
    rintro (rfl | ⟨n, hn, hvalue⟩)
    · exact .self
    · rw [← hvalue]
      exact hen.reaches (fun x hx => .member .self hx) n hn
  · have hall : ∀ t, h.Reaches (.container root) t → ∀ id, t = .container id → id ∈ ids' := by
      intro t ht
      induction ht with
      | self =>
        rintro _ ⟨⟩
        exact hen.subset (List.mem_singleton_self root)
      | @member u x _ hx ih =>
        intro j hj
        cases hu : u.id? with
        | none => simp [Heap.entries, container?, hu] at hx
        | some i =>
          obtain rfl := Tree.eq_container_of_id? hu
          by_cases hi : i = root
          · subst hi
            exact hen.mem_of_entry hx hj
          · exact hen.closed (ih i rfl) (by simpa using hi) hx hj
    exact fun hreach => hall _ hreach id rfl

theorem isPruned_eq (h : Heap) (n : Node) :
    h.isPruned n = true ↔ ∃ id, n.value = .container id ∧ h.length n.value ≠ 0 ∧ n.exposed = false := by
  unfold isPruned isChildless Tree.isComposite
  cases hid : n.value.id? with
  | none =>
    have hnot : ∀ id, n.value ≠ .container id := by
      intro id hvalue
      rw [hvalue] at hid
      cases hid
    simp [hnot]
  | some id =>
    obtain hvalue := Tree.eq_container_of_id? hid
    simp only [hvalue]
    by_cases hlength : h.length (.container id) = 0 <;> cases n.exposed <;> simp [hlength]

/-- The first node that holds a container has its members, and no other one does. -/
theorem Enumerates.exists_holder {root id : ContainerId}
    (hen : h.Enumerates .root [root] (h.entries (.container root)) nodes ids') (hid : id ≠ root)
    (hreach : h.Reaches (.container root) (.container id)) :
    ∃ before n after, nodes = before ++ n :: after ∧ n.value = .container id ∧ n.exposed = true ∧
      listedBelow n.pointer nodes = h.entries (.container id) ∧
      (∀ m ∈ before, m.value ≠ .container id) ∧
      ∀ m ∈ after, m.value = .container id → m.exposed = false ∧ listedBelow m.pointer nodes = [] := by
  have hheld : ∃ n ∈ nodes, n.value = .container id :=
    ((hen.mem_iff id).mp ((hen.mem_iff_reaches id).mpr hreach)).resolve_left (by simpa using hid)
  have hfind : (nodes.find? (·.value = .container id)).isSome := by simpa using hheld
  obtain ⟨n, hn⟩ := Option.isSome_iff_exists.mp hfind
  obtain ⟨hvalue, before, after, hsplit, hbefore⟩ := List.find?_eq_some_iff_append.mp hn
  rw [decide_eq_true_eq] at hvalue
  have hearlier : ∀ m ∈ before, m.value ≠ .container id := by simpa using hbefore
  have hexposed : n.exposed = true :=
    (hsplit ▸ hen.exposedFirst).exposed_iff.mpr ⟨id, hvalue, by simpa using hid, hearlier⟩
  have hlisted := fun m => hen.listedBelow_of_mem (h.nodup_keys_entries _) (n := m)
  refine ⟨before, n, after, hsplit, hvalue, hexposed, ?_, hearlier, fun m hm hsame => ?_⟩
  · rw [hlisted n (by simp [hsplit]), if_pos hexposed, hvalue]
  · obtain ⟨between, later, rfl⟩ := List.append_of_mem hm
    have hsplit' : nodes = (before ++ n :: between) ++ m :: later := by simp [hsplit]
    have hwithheld : m.exposed = false := by
      rw [Bool.eq_false_iff]
      intro hm'
      obtain ⟨j, hj, _, hnone⟩ := (hsplit' ▸ hen.exposedFirst).exposed_iff.mp hm'
      rw [hsame] at hj
      cases hj
      exact hnone n (by simp) hvalue
    exact ⟨hwithheld, by rw [hlisted m (by simp [hsplit']), hwithheld]; rfl⟩

/-- Members are withheld where the root or an earlier node holds a container with members. -/
theorem Enumerates.isPruned_iff {root : ContainerId}
    (hen : h.Enumerates .root [root] (h.entries (.container root)) nodes ids')
    {before after : List Node} {n : Node} (hsplit : nodes = before ++ n :: after) :
    h.isPruned n = true ↔ ∃ id, n.value = .container id ∧ h.length n.value ≠ 0 ∧
      (id = root ∨ ∃ m ∈ before, m.value = .container id) := by
  have hexposed := (hsplit ▸ hen.exposedFirst).exposed_iff
  rw [isPruned_eq]
  refine exists_congr fun id => and_congr_right fun hvalue => and_congr_right fun _ => ?_
  rw [← Bool.not_eq_true, hexposed]
  simp only [hvalue, Tree.container.injEq, List.mem_singleton]
  grind

/-- The list of all nodes is complete, on every heap. -/
theorem descendants_completes (h : Heap) (root : ContainerId) :
    h.Completes root (h.descendants (.container root)) := by
  obtain ⟨ids, hen⟩ := h.exists_enumeration root
  obtain ⟨e, hwalked⟩ := hen.exists_walked_root
  have hwalk : (h.walk (h.visit (.container root)).1 (h.visit (.container root)).2).1 =
      h.descendants (.container root) := by
    simp only [Heap.walk, visit, hwalked.bounded]
    rfl
  exact ⟨hen.drains_root, ⟨e, hwalked.walksTo⟩, hwalk,
    ⟨ids.toFinset, fun id => List.mem_toFinset.trans (hen.mem_iff_reaches id), hen.length_eq⟩,
    hen.listedBelow_base, fun _ => hen.exists_holder, fun _ _ _ => hen.isPruned_iff⟩

end Heap

end Lineage
