import Lineage.Proofs.Run.Copying
import Lineage.Proofs.Traversal.Whole

/-! Copying several documents into one output. Each input is walked by a traversal of its own, which knows
nothing of the others, so that a container that two of them share is copied for each. All of them go into
the output root, one behind the other, and so do their mappings. Nothing is refused as long as no two of the
documents have a name in common. -/

namespace Lineage

variable {σ τ : Type}

def Container.names (c : Container) : List String := c.entries.map (·.1.token)

/-- The names of the members of a document. -/
def Heap.names (h : Heap) (root : ContainerId) : List String :=
  (h.entries (.container root)).map (·.1.token)

/-- No name is in two of the documents. -/
def Heap.Separate (h : Heap) (inputs : List (SourceId × ContainerId)) : Prop :=
  inputs.Pairwise fun x y => (h.names x.2).Disjoint (h.names y.2)

/-- The pruned copies of documents, made one after the other for the root of one output. -/
inductive Heap.PrunesAll (h : Heap) (claims : Segment → Pointer → Tree → Bool) :
    ContainerId → List (SourceId × ContainerId) → List (SourceId × Pruned) → Prop
  | nil {fresh : ContainerId} : PrunesAll h claims fresh [] []
  | cons {fresh root : ContainerId} {source : SourceId} {out : Pruned} {pass : Pass}
      {rest : List (SourceId × ContainerId)} {outs : List (SourceId × Pruned)}
      (hp : h.Prunes claims ⟨.root, .root, none⟩ ⟨[root], fresh⟩ (h.entries (.container root)) out pass)
      (hrest : PrunesAll h claims pass.fresh rest outs) :
      PrunesAll h claims fresh ((source, root) :: rest) ((source, out) :: outs)

namespace Container

theorem names_eq (c : Container) : c.names = (named c.entries).map Prod.fst := by
  simp [names, named]

theorem names_object (members : OrderedMap String Tree) : (Container.object members).names = members.keys := by
  simp [names, Container.entries, OrderedMap.keys, Function.comp_def, Segment.token]

/-- An object has members under its names and under no others. -/
theorem isSome_member?_iff {c : Container} {s : Segment} (hobject : c.isArray = false) :
    (c.member? s).isSome ↔ s.token ∈ c.names := by
  cases c with
  | array items => cases hobject
  | object members =>
    rw [names_object, OrderedMap.mem_keys_iff]
    rfl

theorem Takes.names_eq {c : Container} {ms : List (Segment × Tree)} (h : c.Takes ms) :
    (c.extend ms).names = c.names ++ ms.map (·.1.token) := by
  rw [Container.names_eq, h.named_entries, List.map_append, ← Container.names_eq]
  simp [named]

/-- An object has room for members under names that it does not have. -/
theorem room_none_iff {c : Container} {entries : List (Segment × Tree)} :
    c.Room none entries ↔ c.isArray = false ∧ c.names.Disjoint (entries.map (·.1.token)) := by
  cases c with
  | array items => simp [Room, isArray]
  | object members =>
    rw [names_object, Room, List.disjoint_right, List.forall_mem_map]
    simp only [OrderedMap.contains_eq_false_iff, isArray, true_and, OrderedMap.keys]

end Container

namespace Heap

variable {h : Heap} {claims : Segment → Pointer → Tree → Bool} {spot : Spot} {pass pass' : Pass}
  {entries : List (Segment × Tree)} {out : Pruned} {root : ContainerId}

/-- The copy of an object has no other names than the object. -/
theorem Prunes.tokens_subset (hp : h.Prunes claims spot pass entries out pass')
    (hnumber : spot.number = none) :
    out.members.map (·.1.token) ⊆ entries.map (·.1.token) := by
  have hkey (key : Segment) {s : Spot} (hs : s.number = none) : s.key key = key := by
    rw [Spot.key, hs]
    rfl
  have hnext {s : Spot} (hs : s.number = none) : s.next.number = none := by
    rw [Spot.next, hs]
    rfl
  induction hp with
  | nil => exact List.Subset.refl _
  | claimed _ _ ih => exact List.Subset.trans (ih hnumber) (List.subset_cons_self _ _)
  | scalar _ _ _ ih | again _ _ _ ih | first _ _ _ _ _ ih =>
    simp only [Pruned.scalar, Pruned.container, List.map_cons, hkey _ hnumber]
    exact List.cons_subset_cons _ (ih (hnext hnumber))

/-- After the copy of one document there is room for those without its names. -/
theorem Prunes.disjoint_names {c : Container} {root' : ContainerId}
    (hp : h.Prunes claims ⟨.root, .root, none⟩ pass (h.entries (.container root)) out pass')
    (hobject : c.isArray = false) (hnames : c.names.Disjoint (h.names root))
    (hnames' : c.names.Disjoint (h.names root')) (hapart : (h.names root).Disjoint (h.names root')) :
    (c.extend out.members).names.Disjoint (h.names root') := by
  have htakes : c.Takes out.members :=
    hp.takes (Container.room_none_iff.mpr ⟨hobject, hnames⟩) (h.nodup_tokens_entries _)
  rw [htakes.names_eq, List.disjoint_append_left]
  exact ⟨hnames', fun _ hmem => hapart (hp.tokens_subset rfl hmem)⟩

theorem PrunesAll.takes {fresh : ContainerId} {inputs : List (SourceId × ContainerId)}
    {outs : List (SourceId × Pruned)} (hall : h.PrunesAll claims fresh inputs outs)
    (hseparate : h.Separate inputs) {c : Container} (hobject : c.isArray = false)
    (hnames : ∀ x ∈ inputs, c.names.Disjoint (h.names x.2)) :
    c.Takes (outs.flatMap (·.2.members)) := by
  induction hall generalizing c with
  | nil => trivial
  | cons hp _ ih =>
    obtain ⟨hfirst, hnames'⟩ := List.forall_mem_cons.mp hnames
    obtain ⟨hapart, hseparate'⟩ := List.pairwise_cons.mp hseparate
    have htakes : c.Takes _ :=
      hp.takes (Container.room_none_iff.mpr ⟨hobject, hfirst⟩) (h.nodup_tokens_entries _)
    rw [List.flatMap_cons]
    refine htakes.append (ih hseparate' ((c.isArray_extend _).trans hobject) fun x hx => ?_)
    exact hp.disjoint_names hobject hfirst (hnames' x hx) (hapart x hx)

theorem exists_prunesAll (hc : h.Closed) (claims : Segment → Pointer → Tree → Bool) (fresh : ContainerId)
    (inputs : List (SourceId × ContainerId)) : ∃ outs, h.PrunesAll claims fresh inputs outs := by
  induction inputs generalizing fresh with
  | nil => exact ⟨[], .nil⟩
  | cons x rest ih =>
    obtain ⟨out, pass, hp⟩ := exists_prunes hc claims ⟨.root, .root, none⟩ ⟨[x.2], fresh⟩
      (hc.entries (.container x.2))
    obtain ⟨outs, hrest⟩ := ih pass.fresh
    exact ⟨(x.1, out) :: outs, .cons hp hrest⟩

end Heap

/-- The run stands between two inputs, and `c` is the root of its output, behind the target. -/
structure Gathering (h : Heap) (target : Proxy) (c : Container) (s : HookState σ τ) : Prop where
  root : s.run.root = target
  grows : h.Grows s.workspace.heap
  isOpen : ∃ ms, s.workspace.table? s.run.table = some ⟨ms, false⟩
  content : s.workspace.heap.get? target.backing = some c
  fresh : h.size ≤ target.backing
  registered : s.run.registry.get? target.backing = some .root
  location : target.location = .root
  sink : target.sink.table = s.run.table

/-- Between two states the run has copied documents into the container `c` behind the target. -/
structure Gathered (target : Proxy) (c : Container) (outs : List (SourceId × Pruned))
    (s s' : HookState σ τ) : Prop where
  heap : s'.workspace.heap =
    (s.workspace.heap.set target.backing (c.extend (outs.flatMap (·.2.members)))).append
      (outs.flatMap (·.2.containers))
  table : s'.workspace.table? s.run.table = (s.workspace.table? s.run.table).map fun t =>
    { t with entries := t.entries ++ outs.flatMap fun x => x.2.nodes.map (CopiedNode.mapping x.1) }
  table_eq : s'.run.table = s.run.table

namespace Gathered

variable {target : Proxy} {c : Container} {source : SourceId} {out : Pruned}
  {outs : List (SourceId × Pruned)} {tree : Tree} {s s' s'' : HookState σ τ}

theorem refl (hc : s.workspace.heap.get? target.backing = some c) : Gathered target c [] s s := by
  refine ⟨?_, ?_, rfl⟩
  · simp [Heap.set_eq_self hc]
  · cases s.workspace.table? s.run.table <;> simp

/-- What was filled in for one input comes before what is copied for the others. -/
theorem cons (hf : Filled source target c out (Job.turned s source tree) s')
    (hlt : target.backing < s.workspace.heap.size)
    (hrest : Gathered target (c.extend out.members) outs s' s'') :
    Gathered target c ((source, out) :: outs) s s'' := by
  have htable : s'.run.table = s.run.table := hf.table_eq
  have hheap : s'.workspace.heap =
      (s.workspace.heap.set target.backing (c.extend out.members)).append out.containers := hf.heap
  have hentries : s'.workspace.table? s.run.table = (s.workspace.table? s.run.table).map fun t =>
      { t with entries := t.entries ++ out.nodes.map (CopiedNode.mapping source) } := hf.table
  refine ⟨?_, ?_, hrest.table_eq.trans htable⟩
  · rw [hrest.heap, hheap, Heap.set_append _ _ (by simpa using hlt), Heap.set_set, Heap.append_append,
      ← Container.extend_append]
    rfl
  · have hlater := hrest.table
    rw [htable] at hlater
    rw [hlater, hentries]
    simp [Function.comp_def]

end Gathered

namespace Gathering

variable {h : Heap} {target : Proxy} {c : Container} {s s' : HookState σ τ}

theorem congr (hs : Gathering h target c s) (hsame : s'.runState = s.runState) :
    Gathering h target c s' := by
  have hworkspace : s'.workspace = s.workspace := congrArg RunState.workspace hsame
  have hrun : s'.run = s.run := congrArg RunState.run hsame
  refine ⟨?_, ?_, ?_, ?_, hs.fresh, ?_, hs.location, ?_⟩
  · exact hrun ▸ hs.root
  · exact hworkspace ▸ hs.grows
  · exact hworkspace ▸ hrun ▸ hs.isOpen
  · exact hworkspace ▸ hs.content
  · exact hrun ▸ hs.registered
  · exact hrun ▸ hs.sink

/-- A new traversal has entered the root of the input and nothing else. -/
theorem filling (hs : Gathering h target c s) (source : SourceId) (root : ContainerId) :
    Filling h source s.workspace.traversals.size target ⟨.root, .root, none⟩
      ⟨[root], s.workspace.heap.size⟩ c (OrderedMap.empty.insert root .root)
      (Job.turned s source (.container root)) :=
  ⟨hs.grows, rfl, rfl, hs.isOpen, hs.content, hs.fresh, hs.registered, hs.location, hs.sink,
    Array.getElem?_push_size, Entrances.tracks_empty.insert root .root⟩

/-- After an input the run may go on to the next one. -/
theorem of_filling {source : SourceId} {visit : TraversalId} {pass : Pass} {e : Entrances}
    (hs : Filling h source visit target ⟨.root, .root, none⟩ pass c e s) (hroot : s.run.root = target) :
    Gathering h target c s :=
  ⟨hroot, hs.grows, hs.isOpen, hs.content, hs.fresh, hs.registered, hs.location, hs.sink⟩

/-- A run starts with nothing in its output root. -/
theorem launch (id : RunId) (inputs : List (SourceId × Tree)) (own : τ) (ambient : σ) (w : Workspace) :
    Gathering w.heap (Job.launch id inputs own ambient w).hookState.run.root .emptyObject
      (Job.launch id inputs own ambient w).hookState := by
  refine ⟨rfl, Heap.grows_alloc _ _, ⟨[], ?_⟩, ?_, Nat.le_refl _, ?_, rfl, rfl⟩
  · exact Array.getElem?_push_size
  · exact (Heap.get?_alloc _ _ _).trans (if_pos rfl)
  · exact (OrderedMap.get?_insert _ _ _ _).trans (if_pos rfl)

end Gathering

namespace Job

theorem processInputs_turned (t : Transform σ τ) (source : SourceId) (tree : Tree)
    (rest : List (SourceId × Tree)) (s : HookState σ τ) :
    processInputs t ((source, tree) :: rest) s =
      (t.process s.run.root (s.workspace.visit tree).1.1 (s.workspace.visit tree).1.2 >>=
        fun _ => processInputs t rest) (turned s source tree) := rfl

variable {t : NodeTransform σ τ} {claims : Segment → Pointer → Tree → Bool} {h : Heap}
  {target : Proxy} {c : Container} {s : HookState σ τ} {root : ContainerId} {out : Pruned} {pass : Pass}

/-- The members of an input are handled in order, by a new traversal. -/
theorem process_eq (hs : Gathering h target c s) (hroot : h.Has (.container root)) (source : SourceId) :
    (t.toTransform.process s.run.root (s.workspace.visit (.container root)).1.1
        (s.workspace.visit (.container root)).1.2) (turned s source (.container root)) =
      Hook.forEntries s.workspace.traversals.size .root
        (t.handle s.workspace.traversals.size (s.workspace.heap.size + containerLimit) target)
        (h.entries (.container root)) (turned s source (.container root)) := by
  rw [hs.root, ← hs.grows.entries_eq hroot]
  rfl

/-- The depth is not used up, because a path yields distinct containers. -/
theorem unyielded_le_depth (hs : Gathering h target c s) (ids : List ContainerId) :
    h.unyielded ids ≤ s.workspace.heap.size + containerLimit :=
  Nat.le_trans (h.unyielded_le ids) (Nat.le_trans hs.grows.1 (Nat.le_add_right _ _))

/-- An input is copied into the output root. -/
theorem process_of_selects (ht : t.Selects h claims) (hi : h.Indexable) (hc : h.Closed)
    (hs : Gathering h target c s) (hroot : h.Has (.container root))
    (hp : h.Prunes claims ⟨.root, .root, none⟩ ⟨[root], s.workspace.heap.size⟩
      (h.entries (.container root)) out pass)
    (hobject : c.isArray = false) (hnames : c.names.Disjoint (h.names root)) (source : SourceId) :
    ∃ s', (t.toTransform.process s.run.root (s.workspace.visit (.container root)).1.1
        (s.workspace.visit (.container root)).1.2) (turned s source (.container root)) = .ok () s' ∧
      Filled source target c out (turned s source (.container root)) s' ∧
      Gathering h target (c.extend out.members) s' ∧ s'.workspace.heap.size = pass.fresh := by
  have hfilling := hs.filling source root
  obtain ⟨s', e', hok, hf, he', ht', _⟩ := ht.copies hi hc hp (unyielded_le_depth hs _) (hc.entries _)
    (h.nodup_tokens_entries _) (Container.room_none_iff.mpr ⟨hobject, hnames⟩) hfilling
    (Entrances.clear_root root _)
  have hfilling' : Filling h source s.workspace.traversals.size target ⟨.root, .root, none⟩ pass _ e'
    s' := hfilling.filled hf rfl hp.fresh_eq he' ht'
  refine ⟨s', (process_eq hs hroot source).trans hok, hf, .of_filling hfilling' ?_, hfilling'.size⟩
  rw [hf.run]
  exact hs.root

/-- Inputs without common names are copied into the output root one after the other. -/
theorem processInputs_of_prunesAll (ht : t.Selects h claims) (hi : h.Indexable) (hc : h.Closed)
    {inputs : List (SourceId × ContainerId)} {outs : List (SourceId × Pruned)}
    (hs : Gathering h target c s) (hall : h.PrunesAll claims s.workspace.heap.size inputs outs)
    (hroots : ∀ x ∈ inputs, h.Has (.container x.2)) (hseparate : h.Separate inputs)
    (hobject : c.isArray = false) (hnames : ∀ x ∈ inputs, c.names.Disjoint (h.names x.2)) :
    ∃ s', processInputs t.toTransform (inputs.map fun x => (x.1, .container x.2)) s = .ok () s' ∧
      Gathered target c outs s s' ∧
      Gathering h target (c.extend (outs.flatMap (·.2.members))) s' := by
  induction inputs generalizing c outs s with
  | nil =>
    cases hall
    refine ⟨s, rfl, .refl hs.content, ?_⟩
    simpa using hs
  | cons x rest ih =>
    obtain ⟨source, root⟩ := x
    cases hall with
    | @cons _ _ _ out pass _ outs hp hrest =>
      obtain ⟨hroot, hroots'⟩ := List.forall_mem_cons.mp hroots
      obtain ⟨hfirst, hnames'⟩ := List.forall_mem_cons.mp hnames
      obtain ⟨hapart, hseparate'⟩ := List.pairwise_cons.mp hseparate
      obtain ⟨s₁, hok, hf, hs₁, hsize⟩ :=
        process_of_selects ht hi hc hs hroot hp hobject hfirst source
      have hnames₁ : ∀ x ∈ rest, (c.extend out.members).names.Disjoint (h.names x.2) := fun x hx =>
        hp.disjoint_names hobject hfirst (hnames' x hx) (hapart x hx)
      obtain ⟨s', hok', hgathered, hs'⟩ := ih hs₁ (hsize ▸ hrest) hroots' hseparate'
        ((c.isArray_extend _).trans hobject) hnames₁
      refine ⟨s', ?_, hgathered.cons hf (Heap.lt_size_of_get? hs.content), ?_⟩
      · rw [List.map_cons, processInputs_turned, bind_of_ok hok, hok']
      · rw [List.flatMap_cons, Container.extend_append]
        exact hs'

/-- Inputs with distinct names are processed as they are. -/
theorem launch_inputs (id : RunId) {inputs : List (SourceId × ContainerId)}
    (hids : (inputs.map Prod.fst).Nodup) (own : τ) (ambient : σ) (w : Workspace) :
    (launch id (inputs.map fun x => (x.1, .container x.2)) own ambient w).hookState.run.inputs.entries =
      inputs.map fun x => (x.1, .container x.2) := by
  refine OrderedMap.entries_ofList_of_nodup ?_
  rwa [List.map_map]

variable {w : Workspace} {inputs : List (SourceId × ContainerId)} {outs : List (SourceId × Pruned)}

/-- The hooks copy the pruned trees and record their nodes. -/
theorem hooks_of_prunesAll (ht : t.Selects w.heap claims) (hi : w.heap.Indexable) (hc : w.heap.Closed)
    (hids : (inputs.map Prod.fst).Nodup) (hroots : ∀ x ∈ inputs, w.heap.Has (.container x.2))
    (hseparate : w.heap.Separate inputs)
    (hall : w.heap.PrunesAll claims (w.heap.size + 1) inputs outs) (id : RunId) (own : τ) (ambient : σ) :
    ∃ s, hooks t.toTransform
        (launch id (inputs.map fun x => (x.1, .container x.2)) own ambient w).hookState = .ok () s ∧
      s.run.root.tree = .container w.heap.size ∧
      s.workspace.heap = w.heap.append
        (Container.emptyObject.extend (outs.flatMap (·.2.members)) :: outs.flatMap (·.2.containers)) ∧
      s.workspace.tableEntries s.run.table =
        outs.flatMap fun x => x.2.nodes.map (CopiedNode.mapping x.1) := by
  generalize hlaunch : launch id (inputs.map fun x => (x.1, Tree.container x.2)) own ambient w = j
  have hstart := Gathering.launch id (inputs.map fun x => (x.1, Tree.container x.2)) own ambient w
  have hinputs := launch_inputs id hids own ambient w
  rw [hlaunch] at hstart hinputs
  obtain ⟨s₁, hprepare, hsame₁⟩ := ht.prepare j.hookState hstart.grows
  have hrun₁ : s₁.run = j.hookState.run := congrArg RunState.run hsame₁
  have hworkspace₁ : s₁.workspace = j.hookState.workspace := congrArg RunState.workspace hsame₁
  have hheap₁ : s₁.workspace.heap = w.heap.append [.emptyObject] := by
    rw [hworkspace₁, ← hlaunch, ← Heap.alloc_eq_append]
    rfl
  have hall₁ : w.heap.PrunesAll claims s₁.workspace.heap.size inputs outs := by
    rwa [hheap₁, Heap.size_append]
  obtain ⟨s₂, hprocess, hgathered, hs₂⟩ := processInputs_of_prunesAll ht hi hc (hstart.congr hsame₁) hall₁
    hroots hseparate rfl fun _ _ => List.disjoint_nil_left _
  have hprocess' : processInputs t.toTransform s₁.run.inputs.entries s₁ = .ok () s₂ := by
    rw [hrun₁, hinputs, hprocess]
  obtain ⟨s₃, hconclude, hsame₃⟩ :=
    ht.conclude { s₂ with run := { s₂.run with current := none } } hs₂.grows
  have hworkspace₃ : s₃.workspace = s₂.workspace := congrArg RunState.workspace hsame₃
  have hrun₃ : s₃.run = { s₂.run with current := none } := congrArg RunState.run hsame₃
  have hroot : j.hookState.run.root.backing = w.heap.size := by
    rw [← hlaunch]
    rfl
  refine ⟨s₃, (bind_of_ok hprepare).trans ((bind_of_ok hprocess').trans hconclude), ?_, ?_, ?_⟩
  · rw [hrun₃]
    show s₂.run.root.tree = _
    rw [hs₂.root, Proxy.tree, hroot]
  · rw [hworkspace₃, hgathered.heap, hheap₁, hroot, Heap.set_append_cons, Heap.append_append]
    rfl
  · have htable : s₁.workspace.table? s₁.run.table = some {} := by
      rw [hworkspace₁, hrun₁, ← hlaunch]
      exact Array.getElem?_push_size
    have hentries := hgathered.table
    rw [htable, ← hgathered.table_eq] at hentries
    rw [hworkspace₃, hrun₃]
    simp [Workspace.tableEntries, hentries]

/-- What a job makes that copies its inputs into one output. -/
theorem result_of_prunesAll (ht : t.Selects w.heap claims) (hi : w.heap.Indexable) (hc : w.heap.Closed)
    (hids : (inputs.map Prod.fst).Nodup) (hroots : ∀ x ∈ inputs, w.heap.Has (.container x.2))
    (hseparate : w.heap.Separate inputs)
    (hall : w.heap.PrunesAll claims (w.heap.size + 1) inputs outs) (id : RunId) (own : τ) (ambient : σ) :
    ∃ s, result t.toTransform (launch id (inputs.map fun x => (x.1, .container x.2)) own ambient w) =
        .ok ⟨.container w.heap.size, outs.flatMap fun x => x.2.nodes.map (CopiedNode.mapping x.1)⟩ s ∧
      s.workspace.heap = w.heap.append
        (Container.emptyObject.extend (outs.flatMap (·.2.members)) :: outs.flatMap (·.2.containers)) := by
  obtain ⟨h, hh, htree, hheap, htable⟩ := hooks_of_prunesAll ht hi hc hids hroots hseparate hall id own ambient
  rcases result_cases (t := t.toTransform)
    (s := launch id (inputs.map fun x => (x.1, .container x.2)) own ambient w) rfl with
    ⟨e, h', herror, _⟩ | ⟨h', hok, hresult⟩
  · cases hh.symm.trans herror
  · cases hh.symm.trans hok
    rw [htree, htable] at hresult
    exact ⟨_, hresult, hheap⟩

end Job

end Lineage
