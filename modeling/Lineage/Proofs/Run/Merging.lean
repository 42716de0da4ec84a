import Lineage.Proofs.Run.Replicas
import Lineage.Proofs.Traversal.Shifting

/-! Merging documents. A job that copies its inputs as they are puts them together: it succeeds exactly when
no two of them have a name in common at their roots, and then its output is that of jobs over each of them
alone, one behind the other. Otherwise it fails at the first name that an earlier input has brought in. -/

namespace Lineage

variable {σ τ : Type}

namespace Heap

/-- The name is the first one, in the order of processing, that a document has after an earlier one. -/
def Clashes (h : Heap) (inputs : List (SourceId × ContainerId)) (name : String) : Prop :=
  ∃ before source root after ns ms, inputs = before ++ (source, root) :: after ∧
    h.Separate before ∧ h.names root = ns ++ name :: ms ∧
    name ∈ before.flatMap (fun x => h.names x.2) ∧
    ∀ n ∈ ns, n ∉ before.flatMap (fun x => h.names x.2)

/-- The members of an object stand under names. -/
theorem key_of_mem_entries {h : Heap} {t : Tree} (hobject : h.isArray t = false) {e : Segment × Tree}
    (he : e ∈ h.entries t) : e.1 = .key e.1.token := by
  unfold entries at he
  cases hc : h.container? t with
  | none =>
    rw [hc] at he
    cases he
  | some c =>
    cases c with
    | object members =>
      rw [hc] at he
      obtain ⟨m, _, rfl⟩ := List.mem_map.mp he
      rfl
    | array items =>
      rw [isArray, hc] at hobject
      cases hobject

theorem exists_clashes {h : Heap} {inputs : List (SourceId × ContainerId)}
    (hnot : ¬h.Separate inputs) : ∃ name, h.Clashes inputs name := by
  induction inputs using List.reverseRecOn with
  | nil => exact absurd List.Pairwise.nil hnot
  | append_singleton before x ih =>
    by_cases hbefore : h.Separate before
    · -- the last document has a name of an earlier one, and the first such name is the one
      have hshared : ∃ name ∈ h.names x.2, name ∈ before.flatMap fun y => h.names y.2 := by
        by_contra hnone
        refine hnot (List.pairwise_append.mpr ⟨hbefore, List.pairwise_singleton _ _, ?_⟩)
        intro y hy z hz name hname hname'
        rw [List.mem_singleton.mp hz] at hname'
        exact hnone ⟨name, hname', List.mem_flatMap.mpr ⟨y, hy, hname⟩⟩
      obtain ⟨name, hname, hmem⟩ := hshared
      obtain ⟨first, hfirst⟩ : ∃ first, (h.names x.2).find?
          (fun n => decide (n ∈ before.flatMap fun y => h.names y.2)) = some first :=
        Option.isSome_iff_exists.mp (List.find?_isSome.mpr ⟨name, hname, decide_eq_true hmem⟩)
      obtain ⟨hfound, ns, ms, hnames, hns⟩ := List.find?_eq_some_iff_append.mp hfirst
      exact ⟨first, before, x.1, x.2, [], ns, ms, rfl, hbefore, hnames, of_decide_eq_true hfound,
        fun n hn => by simpa using hns n hn⟩
    · obtain ⟨name, before', source, root, after, ns, ms, rfl, hrest⟩ := ih hbefore
      exact ⟨name, before', source, root, after ++ [x], ns, ms, by simp, hrest⟩

variable {h H : Heap} {fresh : ContainerId} {inputs : List (SourceId × ContainerId)}
  {outs : List (SourceId × Pruned)}

/-- What is copied later holds only containers that are made later. -/
theorem PrunesAll.fresh_le_of_reaches {claims : Segment → Pointer → Tree → Bool}
    (hall : h.PrunesAll claims fresh inputs outs) (hi : h.Indexable)
    (hheld : H.Holds fresh (outs.flatMap fun x => x.2.containers)) {m : Segment × Tree}
    (hm : m ∈ outs.flatMap fun x => x.2.members) {i : ContainerId}
    (hmi : H.Reaches m.2 (.container i)) : fresh ≤ i := by
  induction hall with
  | nil => cases hm
  | cons hp _ ih =>
    rw [List.flatMap_cons] at hm hheld
    rcases List.mem_append.mp hm with hm | hm
    · exact (hp.made_of_reaches hi hheld.left (hp.made_of_mem hm) hmi i rfl).1
    · have hright := hheld.right
      rw [← show _ = _ from hp.fresh_eq] at hright
      exact Nat.le_trans hp.fresh_le (ih hright hm)

/-- The members of all copies together share nothing. -/
theorem PrunesAll.pairwise_shareNothing {claims : Segment → Pointer → Tree → Bool}
    (hall : h.PrunesAll claims fresh inputs outs) (hi : h.Indexable)
    (hheld : H.Holds fresh (outs.flatMap fun x => x.2.containers)) :
    (outs.flatMap fun x => x.2.members).Pairwise fun m n => H.ShareNothing m.2 n.2 := by
  induction hall with
  | nil => exact .nil
  | cons hp hrest ih =>
    rw [List.flatMap_cons] at hheld
    have hright := hheld.right
    rw [← show _ = _ from hp.fresh_eq] at hright
    rw [List.flatMap_cons]
    refine List.pairwise_append.mpr ⟨hp.pairwise_shareNothing hi hheld.left, ih hright, ?_⟩
    intro m hm n hn i hmi hni
    have hbefore := (hp.made_of_reaches hi hheld.left (hp.made_of_mem hm) hmi i rfl).2
    exact Nat.not_lt.mpr (hrest.fresh_le_of_reaches hi hright hn hni) hbefore

/-- Whole copies have all names of the documents. -/
theorem PrunesAll.tokens_eq (hall : h.PrunesAll (fun _ _ _ => false) fresh inputs outs) :
    (outs.flatMap (·.2.members)).map (·.1.token) = inputs.flatMap fun x => h.names x.2 := by
  induction hall with
  | nil => rfl
  | @cons _ root _ out _ _ _ hp _ ih =>
    have hkeys : out.members.map Prod.fst = (h.entries (.container root)).map Prod.fst :=
      hp.keys_eq (fun _ _ _ => rfl) fun _ hnone => by cases hnone
    have htokens := congrArg (List.map Segment.token) hkeys
    rw [List.map_map, List.map_map] at htokens
    rw [List.flatMap_cons, List.flatMap_cons, List.map_append, ih]
    exact congrArg (· ++ _) htokens

end Heap

namespace Gathering

variable {h : Heap} {target : Proxy} {c : Container} {s : HookState σ τ}

theorem entering (hs : Gathering h target c s) (visit : TraversalId) (e : Entrances) :
    Gathering h target c (s.entering visit e) :=
  ⟨hs.root, hs.grows, hs.isOpen, hs.content, hs.fresh, hs.registered, hs.location, hs.sink⟩

/-- A node is refused if the output root has a member under its key. -/
theorem handle_of_member? (hs : Gathering h target c s) (hobject : c.isArray = false) (visit : TraversalId)
    (depth : Nat) {n : Node} (hm : (c.member? n.key).isSome) :
    ∃ s', (NodeTransform.identity : NodeTransform σ τ).handle visit depth target n s =
      .error (.write (.duplicateWrite (Pointer.root.append n.key))) s' := by
  obtain ⟨ms, hms⟩ := hs.isOpen
  have htable : s.workspace.table? target.sink.table = some ⟨ms, false⟩ := by
    rw [hs.sink]
    exact hms
  have hopen : s.runState.workspace.accepts target.sink = true :=
    Workspace.accepts_of_isOpen htable
  have hkey : NodeTransform.copyKey s.workspace.heap target n = n.key := by
    have harray : s.workspace.heap.isArray target.tree = false :=
      (Heap.isArray_container hs.content).trans hobject
    simp [NodeTransform.copyKey, harray]
  have hlocation : target.location.append n.key = Pointer.root.append n.key := by rw [hs.location]
  cases hvalue : n.value.id? with
  | none =>
    have hplace := Run.write_of_member? s.runState (w := { value := n.value, origin := some n.pointer })
      hs.registered rfl hopen hs.content hm
    rw [hlocation] at hplace
    exact ⟨_, NodeTransform.handle_of_scalar_error rfl hvalue (by rw [hkey]; exact hplace)⟩
  | some id =>
    have hallocate := Run.allocate_of_member? s.runState hs.registered hopen hs.content hm
      (.emptyOf (s.workspace.heap.isArray n.value)) n.pointer
    rw [hlocation] at hallocate
    exact ⟨_, NodeTransform.handle_of_container_error rfl (Tree.eq_container_of_id? hvalue)
      (by rw [hkey]; exact hallocate)⟩

end Gathering

namespace Hook

theorem forEntries_append (visit : TraversalId) (base : Pointer) (f : Node → Hook σ τ Unit)
    (xs ys : List (Segment × Tree)) :
    forEntries visit base f (xs ++ ys) =
      (forEntries visit base f xs >>= fun _ => forEntries visit base f ys) := by
  induction xs with
  | nil => exact (pure_bind _ _).symm
  | cons x rest ih =>
    rw [List.cons_append, forEntries, ih, forEntries, bind_assoc]
    refine bind_congr fun n => ?_
    rw [bind_assoc]

end Hook

namespace Job

/-- The inputs that follow are processed from where the first ones have left the run. -/
theorem processInputs_append {t : Transform σ τ} {xs ys : List (SourceId × Tree)} {s s' : HookState σ τ}
    (hok : processInputs t xs s = .ok () s') : processInputs t (xs ++ ys) s = processInputs t ys s' := by
  induction xs generalizing s with
  | nil =>
    cases hok
    rfl
  | cons x rest ih =>
    obtain ⟨source, tree⟩ := x
    rw [List.cons_append, processInputs_turned]
    rw [processInputs_turned] at hok
    cases hfirst : (t.process s.run.root (s.workspace.visit tree).1.1 (s.workspace.visit tree).1.2)
        (turned s source tree) with
    | error e s₁ =>
      rw [bind_of_error hfirst] at hok
      cases hok
    | ok u s₁ =>
      rw [bind_of_ok hfirst] at hok ⊢
      exact ih hok

section Clash

variable {h : Heap} {target : Proxy} {c : Container} {s : HookState σ τ} {root : ContainerId}

/-- An input is refused at the first of its members that the output root has under the same name. -/
theorem processInputs_of_clash (hi : h.Indexable) (hc : h.Closed) (hs : Gathering h target c s)
    (hroot : h.Has (.container root)) (hobject : c.isArray = false)
    {before after : List (Segment × Tree)} {x : Segment × Tree}
    (hentries : h.entries (.container root) = before ++ x :: after)
    (hbefore : c.names.Disjoint (before.map (·.1.token))) (hx : x.1.token ∈ c.names)
    (source : SourceId) (rest : List (SourceId × Tree)) :
    ∃ s', processInputs (NodeTransform.identity : NodeTransform σ τ).toTransform
        ((source, .container root) :: rest) s =
      .error (.write (.duplicateWrite (Pointer.root.append x.1))) s' := by
  have hfilling := hs.filling source root
  have hhas : ∀ y ∈ before, h.Has y.2 := fun y hy =>
    hc.entries (.container root) y (hentries ▸ List.mem_append_left _ hy)
  have hnodup : (before.map (·.1.token)).Nodup := by
    have hall := h.nodup_tokens_entries (.container root)
    rw [hentries, List.map_append] at hall
    exact hall.of_append_left
  have hroom : c.Room none before := Container.room_none_iff.mpr ⟨hobject, hbefore⟩
  -- the members before it are copied
  obtain ⟨out, pass, hp⟩ := Heap.exists_prunes hc (fun _ _ _ => false) ⟨.root, .root, none⟩
    ⟨[root], s.workspace.heap.size⟩ hhas
  obtain ⟨s₁, e, hok, hf, he, ht, _⟩ := (NodeTransform.identity_selects h).copies hi hc hp
    (unyielded_le_depth hs _) hhas hnodup hroom hfilling (Entrances.clear_root root _)
  have hfilling₁ : Filling h source s.workspace.traversals.size target ⟨.root, .root, none⟩ pass _ e s₁ :=
    hfilling.filled hf rfl hp.fresh_eq he ht
  have hs₁ : Gathering h target (c.extend out.members) s₁ := by
    refine .of_filling hfilling₁ ?_
    rw [hf.run]
    exact hs.root
  have hobject₁ : (c.extend out.members).isArray = false := (c.isArray_extend _).trans hobject
  have hkey : ((c.extend out.members).member? (e.yield .root x).1.key).isSome := by
    rw [Container.isSome_member?_iff hobject₁, Entrances.key_yield, (hp.takes hroom hnodup).names_eq]
    exact List.mem_append_left _ hx
  obtain ⟨s', hrefused⟩ := (hs₁.entering s.workspace.traversals.size (e.yield .root x).2).handle_of_member?
    hobject₁ s.workspace.traversals.size (s.workspace.heap.size + containerLimit) hkey
  rw [Entrances.key_yield] at hrefused
  refine ⟨s', ?_⟩
  rw [processInputs_turned]
  refine bind_of_error ?_
  rw [process_eq hs hroot source, hentries, Hook.forEntries_append, bind_of_ok hok,
    Hook.forEntries_cons he, bind_of_error hrefused]

variable {w : Workspace} {inputs : List (SourceId × ContainerId)} {name : String}

/-- Of several inputs, the first that has a name of an earlier one is refused at the first such name. -/
theorem processInputs_of_clashes (hi : h.Indexable) (hc : h.Closed) (hs : Gathering h target .emptyObject s)
    (hroots : ∀ x ∈ inputs, x.2 < h.size ∧ h.isArray (.container x.2) = false)
    (hclash : h.Clashes inputs name) :
    ∃ s', processInputs (NodeTransform.identity : NodeTransform σ τ).toTransform
        (inputs.map fun x => (x.1, .container x.2)) s =
      .error (.write (.duplicateWrite ⟨[.key name]⟩)) s' := by
  obtain ⟨before, source, root, after, ns, ms, rfl, hseparate, hnames, hname, hns⟩ := hclash
  obtain ⟨hbefore, hrest⟩ := List.forall_mem_append.mp hroots
  obtain ⟨hroot, hobject⟩ := hrest _ List.mem_cons_self
  have hhas : ∀ y : SourceId × ContainerId, y.2 < h.size → h.Has (.container y.2) := by
    rintro y hy _ ⟨⟩
    exact hy
  -- the member under the name, and those before it
  obtain ⟨es, tail, hentries, hes, htail⟩ := List.map_eq_append_iff.mp hnames
  obtain ⟨x, fs, rfl, hx, _⟩ := List.map_eq_cons_iff.mp htail
  have hmem : x ∈ h.entries (.container root) :=
    hentries ▸ List.mem_append_right _ List.mem_cons_self
  have hkey : x.1 = .key name := (Heap.key_of_mem_entries hobject hmem).trans (congrArg _ hx)
  -- the inputs before it are copied with all their names
  obtain ⟨outs, hall⟩ := Heap.exists_prunesAll hc (fun _ _ _ => false) s.workspace.heap.size before
  obtain ⟨s₁, hok, _, hs₁⟩ := processInputs_of_prunesAll (NodeTransform.identity_selects h) hi hc hs
    hall (fun y hy => hhas y (hbefore y hy).1) hseparate rfl fun _ _ => List.disjoint_nil_left _
  have htakes : Container.emptyObject.Takes (outs.flatMap fun x => x.2.members) :=
    hall.takes hseparate rfl fun _ _ => List.disjoint_nil_left _
  have hcopied : (Container.emptyObject.extend (outs.flatMap fun x => x.2.members)).names =
      before.flatMap fun x => h.names x.2 := htakes.names_eq.trans hall.tokens_eq
  have hdisjoint : (Container.emptyObject.extend (outs.flatMap fun x => x.2.members)).names.Disjoint
      (es.map (·.1.token)) := by
    rw [hcopied, hes]
    exact fun n hn hmem => hns n hmem hn
  obtain ⟨s₂, herror⟩ := processInputs_of_clash hi hc hs₁ (hhas (source, root) hroot)
    (Container.isArray_extend _ _) hentries hdisjoint (by rw [hcopied, hx]; exact hname) source
    (after.map fun x => (x.1, Tree.container x.2))
  refine ⟨s₂, ?_⟩
  rw [List.map_append, processInputs_append hok, ← show Pointer.root.append x.1 = ⟨[.key name]⟩ by
    rw [hkey]; rfl]
  exact herror

end Clash

/-- A job that copies documents as they are. -/
def copying (id : RunId) (inputs : List (SourceId × ContainerId)) (own : τ) (ambient : σ) (w : Workspace) :
    EStateM.Result RunError (JobState σ τ) RunOutput :=
  result NodeTransform.identity.toTransform
    (launch id (inputs.map fun x => (x.1, .container x.2)) own ambient w)

variable {w : Workspace} {inputs : List (SourceId × ContainerId)}

/-- The job fails at the first name that an earlier input has brought in. -/
theorem copying_of_clashes (hi : w.heap.Indexable) (hc : w.heap.Closed)
    (hids : (inputs.map Prod.fst).Nodup)
    (hroots : ∀ x ∈ inputs, x.2 < w.heap.size ∧ w.heap.isArray (.container x.2) = false)
    {name : String} (hclash : w.heap.Clashes inputs name) (id : RunId) (own : τ) (ambient : σ) :
    ∃ s, copying id inputs own ambient w = .error (.write (.duplicateWrite ⟨[.key name]⟩)) s := by
  have hstart := Gathering.launch id (inputs.map fun x => (x.1, Tree.container x.2)) own ambient w
  obtain ⟨s₁, hprocess⟩ := processInputs_of_clashes hi hc hstart hroots hclash
  have hprepare : (NodeTransform.identity : NodeTransform σ τ).toTransform.prepare
      (launch id (inputs.map fun x => (x.1, .container x.2)) own ambient w).hookState =
        .ok () (launch id (inputs.map fun x => (x.1, .container x.2)) own ambient w).hookState := rfl
  have hhooks : hooks (NodeTransform.identity : NodeTransform σ τ).toTransform
      (launch id (inputs.map fun x => (x.1, .container x.2)) own ambient w).hookState =
        .error (.write (.duplicateWrite ⟨[.key name]⟩)) s₁ := by
    refine (bind_of_ok hprepare).trans ((get_bind _ _).trans (bind_of_error ?_))
    rw [launch_inputs id hids own ambient w]
    exact hprocess
  rcases result_cases (t := NodeTransform.identity.toTransform)
    (s := launch id (inputs.map fun x => (x.1, .container x.2)) own ambient w) rfl with
    ⟨e, s, he, hresult⟩ | ⟨s, hdone, _⟩
  · cases hhooks.symm.trans he
    exact ⟨_, hresult⟩
  · cases hhooks.symm.trans hdone

end Job

namespace Heap

variable {h H : Heap}

/-- What a job makes that copies one document. -/
def copied (h : Heap) (source : SourceId) (out : Pruned) : RunOutput × Heap :=
  (⟨.container h.size, out.nodes.map (CopiedNode.mapping source)⟩,
    h.append (Container.emptyObject.extend out.members :: out.containers))

end Heap

/-- The output is put together from others, one behind the other: its members are isomorphic to theirs, under
the same names, and share nothing with each other, and its mappings are theirs. -/
structure RunOutput.Joins (o : RunOutput) (h : Heap) (parts : List (RunOutput × Heap)) : Prop where
  members : List.Forall₂ (fun x e => x.2.1 = e.1 ∧ ∃ R, x.1.Isomorphic x.2.2 h e.2 R)
    (parts.flatMap fun p => (p.2.members p.1.tree).map fun m => (p.2, m)) (h.members o.tree)
  apart : (h.members o.tree).Pairwise fun e e' => h.ShareNothing e.2 e'.2
  mappings : o.mappings = parts.flatMap fun p => p.1.mappings

namespace Heap

variable {h H : Heap} {k : Nat} {root : ContainerId} {source : SourceId} {out : Pruned} {pass : Pass}

/-- A later copy of a document has the nodes of a copy of it alone, and its members are the same trees. -/
theorem exists_copied (hi : h.Indexable) (hc : h.Closed)
    (hp : h.Prunes (fun _ _ _ => false) ⟨.root, .root, none⟩ ⟨[root], h.size + 1 + k⟩
      (h.entries (.container root)) out pass)
    (hheld : H.Holds (h.size + 1 + k) out.containers) (source : SourceId) :
    ∃ solo, h.PrunesTo (fun _ _ _ => false) root solo ∧
      out.nodes.map (CopiedNode.mapping source) = (h.copied source solo).1.mappings ∧
      List.Forall₂ (fun x e => x.2.1 = e.1 ∧ ∃ R, x.1.Isomorphic x.2.2 H e.2 R)
        (((h.copied source solo).2.members (h.copied source solo).1.tree).map
          fun m => ((h.copied source solo).2, m)) (named out.members) := by
  obtain ⟨solo, ⟨pass₀, hsolo⟩, _⟩ := exists_prunesTo hc (fun _ _ _ => false) root
  obtain ⟨rfl, _⟩ := (hsolo.shift k).unique hp
  have hsource := h.holds_append (Container.emptyObject.extend solo.members :: solo.containers)
  have htakes : (Container.emptyOf false).Takes solo.members :=
    hsolo.takes (fun _ _ => rfl) (h.nodup_tokens_entries _)
  have hroot : (h.copied source solo).2.get? h.size =
      some ((Container.emptyOf false).extend solo.members) := hsource.head
  have hmembers := members_copy hroot htakes
  refine ⟨solo, ⟨pass₀, hsolo⟩, ?_, ?_⟩
  · simp [copied, Pruned.rename, CopiedNode.rename, CopiedNode.mapping, Function.comp_def]
  · show List.Forall₂ _ (((h.copied source solo).2.members (.container h.size)).map _) _
    rw [hmembers]
    simp only [named, Pruned.rename, List.map_map, List.forall₂_map_left_iff, List.forall₂_map_right_iff,
      List.forall₂_same]
    exact fun m hm => ⟨rfl, hsolo.isomorphic_shift hi hsource.tail hheld hm⟩

/-- The copies of several documents are put together from copies of each of them alone. -/
theorem PrunesAll.exists_copied (hi : h.Indexable) (hc : h.Closed)
    {inputs : List (SourceId × ContainerId)} {outs : List (SourceId × Pruned)}
    (hall : h.PrunesAll (fun _ _ _ => false) (h.size + 1 + k) inputs outs)
    (hheld : H.Holds (h.size + 1 + k) (outs.flatMap fun x => x.2.containers)) :
    ∃ solos : List (SourceId × Pruned),
      List.Forall₂ (fun x y => y.1 = x.1 ∧ h.PrunesTo (fun _ _ _ => false) x.2 y.2) inputs solos ∧
      (outs.flatMap fun x => x.2.nodes.map (CopiedNode.mapping x.1)) =
        (solos.map fun y => h.copied y.1 y.2).flatMap (fun p => p.1.mappings) ∧
      List.Forall₂ (fun x e => x.2.1 = e.1 ∧ ∃ R, x.1.Isomorphic x.2.2 H e.2 R)
        ((solos.map fun y => h.copied y.1 y.2).flatMap fun p =>
          (p.2.members p.1.tree).map fun m => (p.2, m))
        (named (outs.flatMap fun x => x.2.members)) := by
  induction inputs generalizing outs k with
  | nil =>
    cases hall
    exact ⟨[], .nil, rfl, .nil⟩
  | cons x rest ih =>
    cases hall with
    | @cons _ root source out pass _ outs hp hrest =>
      rw [List.flatMap_cons] at hheld
      obtain ⟨solo, hsolo, hmappings, hmembers⟩ := Heap.exists_copied hi hc hp hheld.left source
      have hfresh : pass.fresh = h.size + 1 + (k + out.containers.length) := by
        rw [hp.fresh_eq]
        exact Nat.add_assoc _ _ _
      have hlater := hheld.right
      rw [hfresh] at hrest
      rw [Nat.add_assoc (h.size + 1)] at hlater
      obtain ⟨solos, hsolos, hmappings', hmembers'⟩ := ih hrest hlater
      refine ⟨(source, solo) :: solos, .cons ⟨rfl, hsolo⟩ hsolos, ?_, ?_⟩
      · rw [List.flatMap_cons, hmappings, hmappings']
        rfl
      · have hnamed : named (out.members ++ outs.flatMap fun x => x.2.members) =
            named out.members ++ named (outs.flatMap fun x => x.2.members) := List.map_append
        rw [List.flatMap_cons, hnamed]
        exact List.rel_append hmembers hmembers'

end Heap

namespace Job

variable {w : Workspace} {inputs : List (SourceId × ContainerId)} {root : ContainerId}

theorem copying_singleton (hi : w.heap.Indexable) (hc : w.heap.Closed) (hroot : root < w.heap.size)
    {solo : Pruned} (hp : w.heap.PrunesTo (fun _ _ _ => false) root solo) (id : RunId) (source : SourceId)
    (own : τ) (ambient : σ) :
    ∃ s, copying id [(source, root)] own ambient w = .ok (w.heap.copied source solo).1 s ∧
      s.workspace.heap = (w.heap.copied source solo).2 := by
  obtain ⟨⟨tree, mappings⟩, s, hresult, hreplica⟩ :=
    result_of_selects (NodeTransform.identity_selects w.heap) hi hc hroot hp id source own ambient
  obtain rfl : tree = _ := hreplica.tree
  obtain rfl : mappings = _ := hreplica.mappings
  exact ⟨s, hresult, hreplica.heap⟩

/-- How a job over several documents is related to jobs over each of them alone. -/
structure Merges (id : RunId) (inputs : List (SourceId × ContainerId)) (own : τ) (ambient : σ)
    (w : Workspace) : Prop where
  succeeds_iff : (∃ o s, copying id inputs own ambient w = .ok o s) ↔ w.heap.Separate inputs
  joins : ∀ {o s}, copying id inputs own ambient w = .ok o s → ∃ parts : List (RunOutput × Heap),
    List.Forall₂ (fun x p => ∃ s', copying id [x] own ambient w = .ok p.1 s' ∧ s'.workspace.heap = p.2)
      inputs parts ∧ o.Joins s.workspace.heap parts
  names : ∀ {o s}, copying id inputs own ambient w = .ok o s →
    (s.workspace.heap.members o.tree).map Prod.fst = inputs.flatMap fun x => w.heap.names x.2
  sources : ∀ x ∈ inputs, ∀ {o s}, copying id [x] own ambient w = .ok o s →
    ∀ m ∈ o.mappings, m.source = x.1
  clashes : ∀ {e s}, copying id inputs own ambient w = .error e s →
    ∃ name, w.heap.Clashes inputs name ∧ e = .write (.duplicateWrite ⟨[.key name]⟩)

/-- Documents without common names are put together. -/
theorem copying_of_separate (hi : w.heap.Indexable) (hc : w.heap.Closed)
    (hids : (inputs.map Prod.fst).Nodup) (hroots : ∀ x ∈ inputs, x.2 < w.heap.size)
    (hseparate : w.heap.Separate inputs) (id : RunId) (own : τ) (ambient : σ) :
    ∃ o s, copying id inputs own ambient w = .ok o s ∧
      (∃ parts : List (RunOutput × Heap), List.Forall₂
        (fun x p => ∃ s', copying id [x] own ambient w = .ok p.1 s' ∧ s'.workspace.heap = p.2) inputs parts ∧
        o.Joins s.workspace.heap parts) ∧
      (s.workspace.heap.members o.tree).map Prod.fst = inputs.flatMap fun x => w.heap.names x.2 := by
  have hhas : ∀ x ∈ inputs, w.heap.Has (.container x.2) := by
    rintro x hx _ ⟨⟩
    exact hroots x hx
  obtain ⟨outs, hall⟩ := Heap.exists_prunesAll hc (fun _ _ _ => false) (w.heap.size + 1) inputs
  obtain ⟨s, hresult, hheap⟩ := result_of_prunesAll (NodeTransform.identity_selects w.heap) hi hc hids hhas
    hseparate hall id own ambient
  have hheld : s.workspace.heap.Holds w.heap.size
      (Container.emptyObject.extend (outs.flatMap fun x => x.2.members) ::
        outs.flatMap fun x => x.2.containers) := hheap ▸ w.heap.holds_append _
  have htakes : (Container.emptyOf false).Takes (outs.flatMap fun x => x.2.members) :=
    hall.takes hseparate rfl fun _ _ => List.disjoint_nil_left _
  have hroot : s.workspace.heap.get? w.heap.size =
      some ((Container.emptyOf false).extend (outs.flatMap fun x => x.2.members)) := hheld.head
  have hmembers := Heap.members_copy hroot htakes
  obtain ⟨solos, hsolos, hmappings, hjoined⟩ :=
    Heap.PrunesAll.exists_copied (k := 0) hi hc hall hheld.tail
  refine ⟨_, s, hresult, ⟨solos.map fun y => w.heap.copied y.1 y.2, ?_, ?_, ?_, hmappings⟩, ?_⟩
  · rw [List.forall₂_map_right_iff]
    refine ((List.forall₂_and_left _ _).mpr ⟨hroots, hsolos⟩).imp ?_
    rintro ⟨source, root⟩ ⟨_, solo⟩ ⟨hlt, rfl, hsolo⟩
    exact copying_singleton hi hc hlt hsolo id _ own ambient
  · rw [hmembers]
    exact hjoined
  · rw [hmembers, named, List.pairwise_map]
    exact hall.pairwise_shareNothing hi hheld.tail
  · rw [hmembers, tokens_named, List.map_map]
    exact hall.tokens_eq

/-- A job over objects under distinct names puts them together, or fails at the first name that comes
twice. -/
theorem merges_of_objects (hi : w.heap.Indexable) (hc : w.heap.Closed)
    (hids : (inputs.map Prod.fst).Nodup)
    (hroots : ∀ x ∈ inputs, x.2 < w.heap.size ∧ w.heap.isArray (.container x.2) = false) (id : RunId)
    (own : τ) (ambient : σ) : Merges id inputs own ambient w := by
  have hlt : ∀ x ∈ inputs, x.2 < w.heap.size := fun x hx => (hroots x hx).1
  have hfails : ¬w.heap.Separate inputs → ∃ name s, w.heap.Clashes inputs name ∧
      copying id inputs own ambient w = .error (.write (.duplicateWrite ⟨[.key name]⟩)) s := by
    intro hnot
    obtain ⟨name, hclash⟩ := Heap.exists_clashes hnot
    obtain ⟨s, hs⟩ := copying_of_clashes hi hc hids hroots hclash id own ambient
    exact ⟨name, s, hclash, hs⟩
  have hseparate : ∀ {o s}, copying id inputs own ambient w = .ok o s → w.heap.Separate inputs := by
    intro o s hok
    by_contra hnot
    obtain ⟨_, _, _, herror⟩ := hfails hnot
    cases hok.symm.trans herror
  constructor
  case succeeds_iff =>
    refine ⟨fun ⟨_, _, hok⟩ => hseparate hok, fun h => ?_⟩
    obtain ⟨o, s, hok, _⟩ := copying_of_separate hi hc hids hlt h id own ambient
    exact ⟨o, s, hok⟩
  case joins =>
    intro o s hok
    obtain ⟨_, _, hok', hjoins, _⟩ :=
      copying_of_separate hi hc hids hlt (hseparate hok) id own ambient
    cases hok.symm.trans hok'
    exact hjoins
  case names =>
    intro o s hok
    obtain ⟨_, _, hok', _, hnames⟩ :=
      copying_of_separate hi hc hids hlt (hseparate hok) id own ambient
    cases hok.symm.trans hok'
    exact hnames
  case sources =>
    intro x hx o s hok m hm
    obtain ⟨solo, hsolo, _⟩ := Heap.exists_prunesTo hc (fun _ _ _ => false) x.2
    obtain ⟨_, hok', _⟩ := copying_singleton hi hc (hlt x hx) hsolo id x.1 own ambient
    cases hok.symm.trans hok'
    obtain ⟨n, _, rfl⟩ := List.mem_map.mp hm
    rfl
  case clashes =>
    intro e s herror
    by_cases h : w.heap.Separate inputs
    · obtain ⟨_, _, hok, _⟩ := copying_of_separate hi hc hids hlt h id own ambient
      cases herror.symm.trans hok
    · obtain ⟨name, _, hclash, herror'⟩ := hfails h
      cases herror.symm.trans herror'
      exact ⟨name, hclash, rfl⟩

/-- Two documents that share a list, which comes back to itself. -/
def pair : Heap :=
  ⟨#[.object (.ofList [("left", .container 2), ("flag", .bool true)]),
    .object (.ofList [("right", .container 2), ("self", .container 1)]),
    .array [.null, .container 3], .object (.ofList [("up", .container 2)])]⟩

/-- The list is copied for each of the documents. With the first document once more behind them, its first
name comes twice. -/
theorem merges_pair :
    (∃ o s, copying default [(⟨"a"⟩, 0), (⟨"b"⟩, 1)] () () { heap := pair } = .ok o s ∧
      o.mappings.map (fun m => (m.generated.render, m.source.name)) =
        [("/left", "a"), ("/left/0", "a"), ("/left/1", "a"), ("/left/1/up", "a"), ("/flag", "a"),
          ("/right", "b"), ("/right/0", "b"), ("/right/1", "b"), ("/right/1/up", "b"), ("/self", "b")]) ∧
    Merges default [(⟨"a"⟩, 0), (⟨"b"⟩, 1)] () () { heap := pair } ∧
    (∃ s, copying default [(⟨"a"⟩, 0), (⟨"b"⟩, 1), (⟨"c"⟩, 0)] () () { heap := pair } =
      .error (.write (.duplicateWrite ⟨[.key "left"]⟩)) s) ∧
    Merges default [(⟨"a"⟩, 0), (⟨"b"⟩, 1), (⟨"c"⟩, 0)] () () { heap := pair } := by
  have hpairs : (match copying default [(⟨"a"⟩, 0), (⟨"b"⟩, 1)] () () { heap := pair } with
      | .ok o _ => o.mappings.map fun m => (m.generated.render, m.source.name)
      | .error _ _ => []) =
      [("/left", "a"), ("/left/0", "a"), ("/left/1", "a"), ("/left/1/up", "a"), ("/flag", "a"),
        ("/right", "b"), ("/right/0", "b"), ("/right/1", "b"), ("/right/1/up", "b"), ("/self", "b")] := by
    decide +kernel
  have hrefused : (match copying default [(⟨"a"⟩, 0), (⟨"b"⟩, 1), (⟨"c"⟩, 0)] () () { heap := pair } with
      | .ok _ _ => none
      | .error e _ => some e) = some (.write (.duplicateWrite ⟨[.key "left"]⟩)) := by
    decide +kernel
  have hi : pair.Indexable := by decide +kernel
  have hc : pair.Closed := by decide +kernel
  refine ⟨?_, ?_, ?_, ?_⟩
  · cases hr : copying default [(⟨"a"⟩, 0), (⟨"b"⟩, 1)] () () { heap := pair } with
    | ok o s =>
      rw [hr] at hpairs
      exact ⟨o, s, rfl, hpairs⟩
    | error e s =>
      rw [hr] at hpairs
      cases hpairs
  · exact merges_of_objects (w := { heap := pair }) hi hc (by decide) (by decide +kernel) default () ()
  · cases hr : copying default [(⟨"a"⟩, 0), (⟨"b"⟩, 1), (⟨"c"⟩, 0)] () () { heap := pair } with
    | ok o s =>
      rw [hr] at hrefused
      cases hrefused
    | error e s =>
      rw [hr] at hrefused
      cases hrefused
      exact ⟨s, rfl⟩
  · exact merges_of_objects (w := { heap := pair }) hi hc (by decide) (by decide +kernel) default () ()

end Job

end Lineage
