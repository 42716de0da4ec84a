import Lineage.Output.Workspace
import Lineage.Proofs.Traversal.Copies
import Lineage.Proofs.Traversal.Settling
import Mathlib.Logic.Relation

/-! Tours. Whoever uses a traversal takes the next node of any cursor and opens the members of any node,
again and again and in any order, while other trees are built and changed. Every node is found where its
pointer says, a container is exposed at one pointer only and never at the root, and a walk through the
members of a node can be repeated. -/

namespace Lineage

/-- A traversal in use: the workspace, the cursors that were handed out and the nodes that were yielded,
the last ones first. -/
structure Tour where
  workspace : Workspace
  cursors : List Cursor
  yielded : List Node

namespace Tour

def start (w : Workspace) (t : Tree) : Tour := ⟨(w.visit t).2, [(w.visit t).1.2], []⟩

/-- What the traversal has entered. -/
def entrances (T : Tour) (visit : TraversalId) : Entrances :=
  (T.workspace.traversals[visit]?).getD .empty

/-- Takes the next node of a cursor. -/
def advanced (T : Tour) (visit : TraversalId) (c : Cursor) : Tour :=
  ⟨(T.workspace.next visit c).2, (T.workspace.next visit c).1.2 :: T.cursors,
    (T.workspace.next visit c).1.1.toList ++ T.yielded⟩

/-- Opens the members of a node. -/
def opened (T : Tour) (n : Node) : Tour :=
  { T with cursors := T.workspace.heap.children n :: T.cursors }

/-- What may happen during a traversal of a tree. -/
inductive Step (visit : TraversalId) (t : Tree) : Tour → Tour → Prop
  | next {T : Tour} {c : Cursor} (hc : c ∈ T.cursors) : Step visit t T (T.advanced visit c)
  | children {T : Tour} {n : Node} (hn : n ∈ T.yielded) : Step visit t T (T.opened n)
  /-- Anything else that leaves the tree and the traversal alone. -/
  | elsewhere {T : Tour} (w : Workspace)
      (htree : ∀ id, T.workspace.heap.Reaches t (.container id) →
        w.heap.get? id = T.workspace.heap.get? id)
      (hvisit : w.traversals[visit]? = T.workspace.traversals[visit]?) :
      Step visit t T { T with workspace := w }

abbrev Steps (visit : TraversalId) (t : Tree) : Tour → Tour → Prop :=
  Relation.ReflTransGen (Step visit t)

/-- A complete walk from a cursor, through the members of every node, while other steps may come in
between. -/
inductive Walks (visit : TraversalId) (t : Tree) : Tour → Cursor → List Node → Tour → Prop
  | done {T : Tour} {c : Cursor} (hend : (T.workspace.next visit c).1.1 = none) :
      Walks visit t T c [] T
  | wait {T T₁ T₂ : Tour} {c : Cursor} {nodes : List Node} (hstep : Step visit t T T₁)
      (hwalk : Walks visit t T₁ c nodes T₂) : Walks visit t T c nodes T₂
  | next {T T₁ T₂ : Tour} {c c' : Cursor} {n : Node} {below after : List Node}
      (hnext : (T.workspace.next visit c).1 = (some n, c'))
      (hbelow : Walks visit t ((T.advanced visit c).opened n)
        ((T.advanced visit c).workspace.heap.children n) below T₁)
      (hafter : Walks visit t T₁ c' after T₂) : Walks visit t T c (n :: (below ++ after)) T₂

end Tour

/-- What a cursor has still to yield is found in the tree where it will be yielded. -/
structure Cursor.Leads (h : Heap) (t : Tree) (c : Cursor) : Prop where
  scalar : ∀ s, c.scalar = some s → s = t ∧ c.base = .root ∧ t.id? = none
  rest : ∀ x ∈ c.rest, h.resolve? t (c.base.append x.1) = some x.2

/-- The node is found in the tree at its pointer, which is the root only if the tree is a scalar. -/
structure Node.Stands (h : Heap) (t : Tree) (n : Node) : Prop where
  found : h.resolve? t n.pointer = some n.value
  scalar_of_root : n.pointer.isRoot = true → n.value.id? = none

namespace Cursor

variable {h : Heap} {t : Tree} {c c' : Cursor} {e e' : Entrances} {n : Node}

theorem leads_visit (hi : h.Indexable) (t : Tree) : (h.visit t).1.Leads h t := by
  cases t with
  | container id =>
    refine ⟨fun s hs => (by cases hs), fun x hx => ?_⟩
    exact (Heap.resolve?_append (p := .root) rfl _).trans (Heap.member?_of_mem_entries hi hx)
  | _ =>
    refine ⟨fun s hs => ?_, fun x hx => by cases hx⟩
    cases hs
    exact ⟨rfl, rfl, rfl⟩

theorem leads_children (hi : h.Indexable) (hn : n.Stands h t) : (h.children n).Leads h t := by
  unfold Heap.children
  split
  · refine ⟨fun s hs => (by cases hs), fun x hx => ?_⟩
    exact (Heap.resolve?_append hn.found _).trans (Heap.member?_of_mem_entries hi hx)
  · exact ⟨fun s hs => (by cases hs), fun x hx => by cases hx⟩

theorem Leads.next (hl : c.Leads h t) (hnext : c.next? e = some (n, c', e')) :
    c'.Leads h t ∧ n.Stands h t ∧ e'.Settles n ∧ e.Keeps e' := by
  rcases next?_cases hnext with ⟨s, hs, rfl, rfl, rfl⟩ | ⟨x, rest, hs, hr, hyield, rfl⟩
  · obtain ⟨rfl, hbase, hid⟩ := hl.scalar s hs
    refine ⟨⟨fun s hs => (by cases hs), hl.rest⟩, ⟨?_, fun _ => hid⟩, ?_, .refl e'⟩
    · rw [scalarNode, hbase]
      rfl
    · exact (Entrances.settles_scalar_iff hid).mpr rfl
  · obtain ⟨rfl, rfl⟩ : (e.yield c.base x).1 = n ∧ (e.yield c.base x).2 = e' := by
      rw [hyield]
      exact ⟨rfl, rfl⟩
    have hrest : ∀ y ∈ rest, h.resolve? t (c.base.append y.1) = some y.2 :=
      fun y hy => hl.rest y (hr ▸ List.mem_cons_of_mem _ hy)
    refine ⟨⟨fun s' hs' => ?_, hrest⟩, ⟨?_, fun hroot => ?_⟩, Entrances.settles_yield e c.base x⟩
    · rw [hs] at hs'
      cases hs'
    · rw [Entrances.pointer_yield, Entrances.value_yield]
      exact hl.rest x (hr ▸ List.mem_cons_self)
    · rw [Entrances.pointer_yield] at hroot
      simp [Pointer.isRoot, Pointer.append] at hroot

end Cursor

namespace Tour

variable {h : Heap} {visit : TraversalId} {t : Tree} {T T' : Tour} {c : Cursor} {nodes : List Node}

/-- What holds throughout a tour of the tree as it is in the heap `h`. -/
structure Sound (h : Heap) (visit : TraversalId) (t : Tree) (T : Tour) : Prop where
  tree : ∀ id, h.Reaches t (.container id) → T.workspace.heap.get? id = h.get? id
  live : visit < T.workspace.traversals.size
  root : ∀ id, t = .container id → (T.entrances visit).get? id = some .root
  leads : ∀ c ∈ T.cursors, c.Leads h t
  stands : ∀ n ∈ T.yielded, n.Stands h t
  settles : ∀ n ∈ T.yielded, (T.entrances visit).Settles n

theorem sound_start {w : Workspace} (hi : w.heap.Indexable) (t : Tree) :
    Sound w.heap w.traversals.size t (start w t) := by
  have hentrances : (start w t).entrances w.traversals.size = (w.heap.visit t).2 := by
    simp [start, entrances, Workspace.visit]
  refine ⟨fun _ _ => rfl, by simp [start, Workspace.visit], fun id hid => ?_, fun c hc => ?_, ?_, ?_⟩
  · rw [hentrances, hid]
    exact (OrderedMap.get?_insert _ _ _ _).trans (if_pos rfl)
  · rw [List.mem_singleton.mp hc]
    exact Cursor.leads_visit hi t
  · exact fun n hn => absurd hn List.not_mem_nil
  · exact fun n hn => absurd hn List.not_mem_nil

/-- A later tour has entered no container elsewhere, and has all cursors and nodes of an earlier one. -/
structure Continues (visit : TraversalId) (T T' : Tour) : Prop where
  keeps : (T.entrances visit).Keeps (T'.entrances visit)
  cursors : T.cursors ⊆ T'.cursors
  yielded : T.yielded ⊆ T'.yielded

theorem Continues.refl (visit : TraversalId) (T : Tour) : Continues visit T T :=
  ⟨.refl _, List.Subset.refl _, List.Subset.refl _⟩

theorem Continues.trans {T₁ : Tour} (h₁ : Continues visit T T₁) (h₂ : Continues visit T₁ T') :
    Continues visit T T' :=
  ⟨fun id p hp => h₂.keeps id p (h₁.keeps id p hp), List.Subset.trans h₁.cursors h₂.cursors,
    List.Subset.trans h₁.yielded h₂.yielded⟩

/-- What a cursor yields is up to what the traversal has entered. -/
theorem advanced_cases (hv : visit < T.workspace.traversals.size) (c : Cursor) :
    (c.next? (T.entrances visit) = none ∧ (T.workspace.next visit c).1 = (none, c) ∧
      (T.advanced visit c).cursors = c :: T.cursors ∧ (T.advanced visit c).yielded = T.yielded ∧
      (T.advanced visit c).entrances visit = T.entrances visit) ∨
    ∃ n c' e', c.next? (T.entrances visit) = some (n, c', e') ∧
      (T.workspace.next visit c).1 = (some n, c') ∧
      (T.advanced visit c).cursors = c' :: T.cursors ∧
      (T.advanced visit c).yielded = n :: T.yielded ∧ (T.advanced visit c).entrances visit = e' := by
  obtain ⟨e, he⟩ : ∃ e, T.workspace.traversals[visit]? = some e :=
    ⟨_, Array.getElem?_eq_getElem hv⟩
  have hset : ∀ e' : Entrances, (T.workspace.traversals.setIfInBounds visit e')[visit]? = some e' :=
    fun e' => by simp [hv]
  unfold advanced entrances Workspace.next Workspace.traverse
  simp only [he, Option.getD_some]
  cases hnext : c.next? e with
  | none => exact .inl ⟨rfl, rfl, rfl, rfl, by simp only [hset, Option.getD_some]⟩
  | some r =>
    obtain ⟨n, c', e'⟩ := r
    exact .inr ⟨n, c', e', rfl, rfl, rfl, rfl, by simp only [hset, Option.getD_some]⟩

theorem Sound.advanced (hs : Sound h visit t T) (hc : c ∈ T.cursors) :
    Sound h visit t (T.advanced visit c) ∧ Continues visit T (T.advanced visit c) := by
  have hlive : visit < (T.advanced visit c).workspace.traversals.size :=
    Nat.lt_of_lt_of_eq hs.live Array.size_setIfInBounds.symm
  rcases advanced_cases hs.live c with
    ⟨_, _, hcursors, hyielded, he⟩ | ⟨n, c', e', hnext, _, hcursors, hyielded, he⟩
  · refine ⟨⟨hs.tree, hlive, he ▸ hs.root, ?_, hyielded ▸ hs.stands, ?_⟩, ⟨he ▸ .refl _, ?_, ?_⟩⟩
    · rw [hcursors]
      exact List.forall_mem_cons.mpr ⟨hs.leads c hc, hs.leads⟩
    · rw [hyielded, he]
      exact hs.settles
    · rw [hcursors]
      exact List.subset_cons_self _ _
    · rw [hyielded]
      exact List.Subset.refl _
  · obtain ⟨hleads, hstands, hsettles, hkeeps⟩ := (hs.leads c hc).next hnext
    refine ⟨⟨hs.tree, hlive, ?_, ?_, ?_, ?_⟩, ⟨he ▸ hkeeps, ?_, ?_⟩⟩
    · rw [he]
      exact fun id hid => hkeeps _ _ (hs.root id hid)
    · rw [hcursors]
      exact List.forall_mem_cons.mpr ⟨hleads, hs.leads⟩
    · rw [hyielded]
      exact List.forall_mem_cons.mpr ⟨hstands, hs.stands⟩
    · rw [hyielded, he]
      exact List.forall_mem_cons.mpr ⟨hsettles, fun m hm => (hs.settles m hm).mono hkeeps⟩
    · rw [hcursors]
      exact List.subset_cons_self _ _
    · rw [hyielded]
      exact List.subset_cons_self _ _

/-- The members of a node that was yielded are those that it has in the tree. -/
theorem Sound.children_eq (hs : Sound h visit t T) {n : Node}
    (hn : n ∈ T.yielded) : T.workspace.heap.children n = h.children n := by
  have hreach : h.Reaches t n.value := Heap.Reaches.self.follow? (hs.stands n hn).found
  unfold Heap.children
  rw [hreach.entries_eq hs.tree]

theorem Sound.opened (hs : Sound h visit t T) (hi : h.Indexable) {n : Node} (hn : n ∈ T.yielded) :
    Sound h visit t (T.opened n) ∧ Continues visit T (T.opened n) := by
  refine ⟨⟨hs.tree, hs.live, hs.root, ?_, hs.stands, hs.settles⟩,
    ⟨.refl _, List.subset_cons_self _ _, List.Subset.refl _⟩⟩
  refine List.forall_mem_cons.mpr ⟨?_, hs.leads⟩
  rw [hs.children_eq hn]
  exact Cursor.leads_children hi (hs.stands n hn)

theorem Sound.elsewhere (hs : Sound h visit t T) {w : Workspace}
    (htree : ∀ id, T.workspace.heap.Reaches t (.container id) →
      w.heap.get? id = T.workspace.heap.get? id)
    (hvisit : w.traversals[visit]? = T.workspace.traversals[visit]?) :
    Sound h visit t { T with workspace := w } ∧ Continues visit T { T with workspace := w } := by
  have he : Tour.entrances { T with workspace := w } visit = T.entrances visit := by
    rw [entrances, entrances, hvisit]
  refine ⟨⟨fun id hid => ?_, ?_, he ▸ hs.root, hs.leads, hs.stands, he ▸ hs.settles⟩,
    ⟨he ▸ .refl _, List.Subset.refl _, List.Subset.refl _⟩⟩
  · exact (htree id (hid.congr hs.tree)).trans (hs.tree id hid)
  · have hsome := hvisit.trans (Array.getElem?_eq_getElem hs.live)
    exact (Array.getElem?_eq_some_iff.mp hsome).1

theorem Sound.step (hs : Sound h visit t T) (hi : h.Indexable) (hstep : Step visit t T T') :
    Sound h visit t T' ∧ Continues visit T T' := by
  cases hstep with
  | next hc => exact hs.advanced hc
  | children hn => exact hs.opened hi hn
  | elsewhere w htree hvisit => exact hs.elsewhere htree hvisit

theorem Sound.steps (hs : Sound h visit t T) (hi : h.Indexable) (hsteps : Steps visit t T T') :
    Sound h visit t T' ∧ Continues visit T T' := by
  induction hsteps with
  | refl => exact ⟨hs, .refl visit T⟩
  | tail _ hstep ih =>
    obtain ⟨hs₁, hc₁⟩ := ih
    obtain ⟨hs₂, hc₂⟩ := hs₁.step hi hstep
    exact ⟨hs₂, hc₁.trans hc₂⟩

/-- A walk goes on right after a node without members. -/
theorem Walks.next_leaf {c' : Cursor} {n : Node} {after : List Node}
    (hnext : (T.workspace.next visit c).1 = (some n, c'))
    (hend : ((T.advanced visit c).workspace.next visit
      ((T.advanced visit c).workspace.heap.children n)).1.1 = none)
    (hafter : Walks visit t ((T.advanced visit c).opened n) c' after T') :
    Walks visit t T c (n :: after) T' := by
  rw [← List.nil_append after]
  exact .next hnext (.done hend) hafter

/-- A complete walk from a cursor is a part of the tour, and lists what the cursor leads to. -/
theorem Walks.lists (hw : Walks visit t T c nodes T') (hs : Sound h visit t T) (hi : h.Indexable)
    (hc : c ∈ T.cursors) : h.Lists c nodes ∧ Steps visit t T T' ∧ nodes ⊆ T'.yielded := by
  induction hw with
  | @done T c hend =>
    rcases advanced_cases hs.live c with ⟨hnone, _⟩ | ⟨n, c', e', _, hr, _⟩
    · exact ⟨.done hnone, .refl, List.nil_subset _⟩
    · rw [hr] at hend
      cases hend
  | wait hstep _ ih =>
    obtain ⟨hs₁, hc₁⟩ := hs.step hi hstep
    obtain ⟨hl, hsteps, hnodes⟩ := ih hs₁ (hc₁.cursors hc)
    exact ⟨hl, .head hstep hsteps, hnodes⟩
  | @next T T₁ T₂ c c' n below after hnext _ _ ihbelow ihafter =>
    rcases advanced_cases hs.live c with ⟨_, hr, _⟩ | ⟨m, d, e', hm, hr, hcursors, hyielded, _⟩
    · rw [hnext] at hr
      cases hr
    · rw [hnext] at hr
      cases hr
      have hn : n ∈ (T.advanced visit c).yielded := hyielded ▸ List.mem_cons_self
      have hc' : c' ∈ (T.advanced visit c).cursors := hcursors ▸ List.mem_cons_self
      have hopened : Steps visit t T ((T.advanced visit c).opened n) :=
        .tail (.single (.next hc)) (.children hn)
      obtain ⟨hs₀, _⟩ := hs.steps hi hopened
      obtain ⟨hl₁, hsteps₁, hnodes₁⟩ := ihbelow hs₀ List.mem_cons_self
      obtain ⟨hs₁, hc₁⟩ := hs₀.steps hi hsteps₁
      obtain ⟨hl₂, hsteps₂, hnodes₂⟩ := ihafter hs₁ (hc₁.cursors (List.mem_cons_of_mem _ hc'))
      obtain ⟨_, hc₂⟩ := hs₁.steps hi hsteps₂
      rw [(hs.advanced hc).1.children_eq hn] at hl₁
      refine ⟨.next hm hl₁ hl₂, (hopened.trans hsteps₁).trans hsteps₂, List.cons_subset.mpr ⟨?_, ?_⟩⟩
      · exact hc₂.yielded (hc₁.yielded hn)
      · exact List.append_subset.mpr ⟨List.Subset.trans hnodes₁ hc₂.yielded, hnodes₂⟩

theorem Sound.exposed_once (hs : Sound h visit t T) {m n : Node} (hm : m ∈ T.yielded)
    (hn : n ∈ T.yielded) {id : ContainerId} (hmv : m.value = .container id)
    (hnv : n.value = .container id) (hmx : m.exposed = true) (hnx : n.exposed = true) :
    (m.pointer == n.pointer) = true := by
  obtain ⟨p, hp, hmp⟩ := (Entrances.settles_container_iff hmv).mp (hs.settles m hm)
  obtain ⟨q, hq, hnq⟩ := (Entrances.settles_container_iff hnv).mp (hs.settles n hn)
  obtain rfl : p = q := Option.some.inj (hp.symm.trans hq)
  rw [hmx, eq_comm, Pointer.beq_iff] at hmp
  rw [hnx, eq_comm, Pointer.beq_iff] at hnq
  exact Pointer.beq_iff.mpr (hmp.symm.trans hnq)

/-- The root was entered at the root, where no node but a scalar stands. -/
theorem Sound.root_withheld (hs : Sound h visit t T) {n : Node} (hn : n ∈ T.yielded)
    (hx : n.exposed = true) : n.value ≠ t := by
  intro hvalue
  cases hid : n.value.id? with
  | none =>
    rw [(Entrances.settles_scalar_iff hid).mp (hs.settles n hn)] at hx
    cases hx
  | some id =>
    have hcontainer := Tree.eq_container_of_id? hid
    obtain ⟨p, hp, hnp⟩ := (Entrances.settles_container_iff hcontainer).mp (hs.settles n hn)
    rw [hs.root id (hvalue.symm.trans hcontainer)] at hp
    cases hp
    rw [hx, eq_comm, Pointer.beq_iff, Pointer.tokens_root, eq_comm, Pointer.tokens,
      List.map_eq_nil_iff] at hnp
    have hnone := (hs.stands n hn).scalar_of_root (List.isEmpty_iff.mpr hnp)
    rw [hid] at hnone
    cases hnone

theorem Sound.agree (hs : Sound h visit t T) {m n : Node} (hm : m ∈ T.yielded) (hn : n ∈ T.yielded)
    (hpointer : (m.pointer == n.pointer) = true) : m.exposed = n.exposed := by
  have hsame : h.resolve? t m.pointer = h.resolve? t n.pointer :=
    h.follow?_congr t (Pointer.beq_iff.mp hpointer)
  rw [(hs.stands m hm).found, (hs.stands n hn).found] at hsame
  exact (hs.settles m hm).exposed_eq (hs.settles n hn) (Option.some.inj hsame) hpointer

/-- By the end of a tour, the nodes of a walk through the members of a node are settled, and list what
the members lead to. -/
theorem lists_of_walks {w : Workspace} (hi : w.heap.Indexable) {T₁ : Tour} {n : Node}
    (hsteps : Steps w.traversals.size t (start w t) T₁) (hn : n ∈ T₁.yielded)
    (hwalk : Walks w.traversals.size t (T₁.opened n) (T₁.workspace.heap.children n) nodes T')
    (hrest : Steps w.traversals.size t T' T) :
    w.heap.Lists (w.heap.children n) nodes ∧
      ∀ m ∈ nodes, (T.entrances w.traversals.size).Settles m := by
  obtain ⟨hs₁, _⟩ := (sound_start hi t).steps hi hsteps
  obtain ⟨hs₂, _⟩ := hs₁.opened hi hn
  obtain ⟨hl, hwalked, hnodes⟩ := hwalk.lists hs₂ hi List.mem_cons_self
  obtain ⟨hs₃, _⟩ := hs₂.steps hi hwalked
  obtain ⟨hs₄, hc₄⟩ := hs₃.steps hi hrest
  rw [hs₁.children_eq hn] at hl
  exact ⟨hl, fun m hm => hs₄.settles m (hc₄.yielded (hnodes hm))⟩

/-- What a tour has yielded fits together, and so do the walks that it has completed. -/
structure Coherent (w : Workspace) (t : Tree) (T : Tour) : Prop where
  resolves : ∀ n ∈ T.yielded, T.workspace.heap.resolve? t n.pointer = some n.value
  exposed_once : ∀ m ∈ T.yielded, ∀ n ∈ T.yielded, ∀ id, m.value = .container id →
    n.value = .container id → m.exposed = true → n.exposed = true → (m.pointer == n.pointer) = true
  root_withheld : ∀ n ∈ T.yielded, n.exposed = true → n.value ≠ t
  agree : ∀ m ∈ T.yielded, ∀ n ∈ T.yielded, (m.pointer == n.pointer) = true → m.exposed = n.exposed
  /-- Walks through the members of one node come to the same nodes, also when they overlap. -/
  walks : ∀ (n : Node) (T₁ T₁' T₂ T₂' : Tour) (nodes₁ nodes₂ : List Node),
    Steps w.traversals.size t (start w t) T₁ → Steps w.traversals.size t (start w t) T₂ →
    n ∈ T₁.yielded → n ∈ T₂.yielded →
    Walks w.traversals.size t (T₁.opened n) (T₁.workspace.heap.children n) nodes₁ T₁' →
    Walks w.traversals.size t (T₂.opened n) (T₂.workspace.heap.children n) nodes₂ T₂' →
    Steps w.traversals.size t T₁' T → Steps w.traversals.size t T₂' T → nodes₁ = nodes₂

/-- Every tour of a tree is coherent, whatever the tree shares and contains. -/
theorem coherent_of_steps {w : Workspace} (hi : w.heap.Indexable)
    (hsteps : Steps w.traversals.size t (start w t) T) : T.Coherent w t := by
  obtain ⟨hs, _⟩ := (sound_start hi t).steps hi hsteps
  refine ⟨fun n hn => ?_, fun _ hm _ hn _ => hs.exposed_once hm hn, fun _ => hs.root_withheld,
    fun _ hm _ => hs.agree hm, ?_⟩
  · exact (Heap.Reaches.self.follow?_eq hs.tree _).trans (hs.stands n hn).found
  · intro n T₁ T₁' T₂ T₂' nodes₁ nodes₂ h₁ h₂ hn₁ hn₂ hw₁ hw₂ hr₁ hr₂
    obtain ⟨hl₁, hset₁⟩ := lists_of_walks hi h₁ hn₁ hw₁ hr₁
    obtain ⟨hl₂, hset₂⟩ := lists_of_walks hi h₂ hn₂ hw₂ hr₂
    exact hl₁.unique hl₂ hset₁ hset₂

/-- An object under two names, which contains itself. -/
def spiral : Workspace :=
  { heap := ⟨#[.object (.ofList [("a", .container 1), ("b", .container 1)]),
      .object (.ofList [("v", .null), ("own", .container 1)])]⟩ }

/-- The object under its first name. -/
def spiralNode : Node := ⟨.key "a", .container 1, ⟨[.key "a"]⟩, true⟩

/-- A tour that has yielded the object under its first name. -/
def spiralTour : Tour := (start spiral (.container 0)).advanced 0 (spiral.visit (.container 0)).1.2

/-- A walk through the members of the object. In between, the object is yielded under its second
name. -/
theorem walks_spiral : ∃ T, Walks 0 (.container 0) (spiralTour.opened spiralNode)
      (spiralTour.workspace.heap.children spiralNode)
      [⟨.key "v", .null, ⟨[.key "a", .key "v"]⟩, false⟩,
        ⟨.key "own", .container 1, ⟨[.key "a", .key "own"]⟩, false⟩] T ∧
    T.yielded.map (fun n => (n.pointer.render, n.exposed)) =
      [("/a/own", false), ("/b", false), ("/a/v", false), ("/a", true)] := by
  have hb : { rest := [(.key "b", .container 1)] } ∈
      ((spiralTour.opened spiralNode).advanced 0
        (spiralTour.workspace.heap.children spiralNode)).cursors := by
    decide +kernel
  exact ⟨_, .next_leaf rfl rfl (.wait (.next (List.mem_cons_of_mem _ hb))
    (.next_leaf rfl rfl (.done rfl))), by decide +kernel⟩

theorem coherent_spiral : ∃ T, Steps 0 (.container 0) (start spiral (.container 0)) T ∧
    Walks 0 (.container 0) (spiralTour.opened spiralNode)
      (spiralTour.workspace.heap.children spiralNode)
      [⟨.key "v", .null, ⟨[.key "a", .key "v"]⟩, false⟩,
        ⟨.key "own", .container 1, ⟨[.key "a", .key "own"]⟩, false⟩] T ∧
    T.yielded.map (fun n => (n.pointer.render, n.exposed)) =
      [("/a/own", false), ("/b", false), ("/a/v", false), ("/a", true)] ∧
    T.Coherent spiral (.container 0) := by
  have hi : spiral.heap.Indexable := by decide +kernel
  have hfirst : Steps 0 (.container 0) (start spiral (.container 0)) spiralTour :=
    .single (.next List.mem_cons_self)
  have hn : spiralNode ∈ spiralTour.yielded := by decide +kernel
  obtain ⟨T, hwalk, hyielded⟩ := walks_spiral
  obtain ⟨hs, _⟩ := ((sound_start hi (.container 0)).steps hi hfirst).1.opened hi hn
  obtain ⟨_, hwalked, _⟩ := hwalk.lists hs hi List.mem_cons_self
  have hsteps : Steps 0 (.container 0) (start spiral (.container 0)) T :=
    (hfirst.tail (.children hn)).trans hwalked
  exact ⟨T, hsteps, hwalk, hyielded, coherent_of_steps hi hsteps⟩

end Tour

end Lineage
