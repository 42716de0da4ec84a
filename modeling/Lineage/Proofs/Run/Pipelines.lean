import Lineage.Proofs.Blame.Grounds
import Lineage.Proofs.Run.Citations
import Lineage.Proofs.Run.Completion
import Lineage.Proofs.Run.Explained

/-! Pipelines. A store starts with authored documents, and stage after stage generates one more. What a
stage writes it takes from places that its inputs have, so below the root of its output everything goes
back to the inputs, and in the end to authored documents. The root itself is never written: a write that
names the root of a generated document as its origin sends blame to a place without any mapping, and what
is below such a write goes back to places that the generated document need not have. -/

namespace Lineage

namespace MemoryStore

/-- The document is generated, and its mappings cover the members of its root. -/
def Covers (s : MemoryStore) (h : Heap) (id : SourceId) : Prop :=
  ∃ root ms, s.document? id = some ⟨some (.container root), some ms⟩ ∧ root < h.size ∧
    ∀ key, (h.member? (.container root) key).isSome → ∃ m ∈ ms, m.generated.tokens = [key.token]

variable {s s' : MemoryStore} {h h' : Heap} {id : SourceId}

theorem Covers.contains (hc : s.Covers h id) : s.contains id = true := by
  obtain ⟨root, ms, hd, _⟩ := hc
  exact contains_iff.mpr ⟨_, hd⟩

theorem Covers.grows (hc : s.Covers h id) (hg : h.Grows h') : s.Covers h' id := by
  obtain ⟨root, ms, hd, hroot, hmembers⟩ := hc
  refine ⟨root, ms, hd, Nat.lt_of_lt_of_le hroot hg.1, fun key hkey => ?_⟩
  rw [hg.member? hroot] at hkey
  exact hmembers key hkey

theorem Covers.congr (hs : s'.document? id = s.document? id) (hc : s.Covers h id) :
    s'.Covers h id := by
  unfold Covers at hc ⊢
  rwa [hs]

/-- There is a mapping at or above every place below the root. -/
theorem Covers.accounts (hc : s.Covers h id) {tree : Tree} (htree : s.tree? id = some tree)
    {place : Pointer} (hplace : place.isRoot = false) (hr : (h.resolve? tree place).isSome) :
    s.Accounts id place.tokens := by
  obtain ⟨root, ms, hd, _, hmembers⟩ := hc
  have hcontainer : tree = .container root := by simpa [tree?, hd] using htree.symm
  subst hcontainer
  obtain ⟨key, hkey, hpre⟩ := Heap.exists_member?_of_resolve? hplace hr
  obtain ⟨m, hm, htokens⟩ := hmembers key hkey
  refine fun _ => ⟨ms, by simp [mappings, hd], m, hm, ?_⟩
  rw [htokens]
  exact hpre

end MemoryStore

/-- From the first hook to the last, a new job takes only steps that cite. -/
def Job.Cites {σ τ : Type} (t : Transform σ τ) (id : RunId) (inputs : List (SourceId × Tree))
    (own : τ) (ambient : σ) (w : Workspace) : Prop :=
  (hooks t).StepsBy Run.CitedStep (launch id inputs own ambient w).hookState
    [(launch id inputs own ambient w).job.run.root] fun _ _ _ => True

/-- A job that succeeds gives the output and the mappings at the end of its steps. -/
theorem Job.exists_steps_of_result {σ τ : Type} {t : Transform σ τ} {id : RunId}
    {inputs : List (SourceId × Tree)} {own : τ} {ambient : σ} {w : Workspace}
    (hcites : Cites t id inputs own ambient w) {o : RunOutput} {j : JobState σ τ}
    (hr : result t (launch id inputs own ambient w) = .ok o j) :
    ∃ p, Run.CitedSteps ⟨Run.start id inputs w, [(Run.start id inputs w).run.root]⟩ p ∧
      o = ⟨p.state.run.root.tree, p.state.mappings⟩ ∧ j.workspace.heap = p.state.workspace.heap := by
  obtain ⟨issued, hsteps, _⟩ := hcites
  rcases result_cases (t := t) (s := launch id inputs own ambient w) rfl with
    ⟨e, h, _, herr⟩ | ⟨h, hh, hok⟩
  · rw [herr] at hr
    cases hr
  · rw [hok] at hr
    rw [hh] at hsteps
    cases hr
    exact ⟨⟨h.runState, issued⟩, hsteps, rfl, rfl⟩

namespace Stage

/-- States that come about when documents are added to an empty store and stages are run that succeed,
with the outputs of the stages, the last one first. Every stage has a new name for its output, leaves
the store to itself, and writes only through its run, with origins that are there in the input that
they name. -/
inductive Pipeline : StageState MemoryStore → List SourceId → Prop
  | authored {w : Workspace} (hw : w.heap.Indexable) (docs : List (SourceId × Tree)) :
      Pipeline ⟨w, docs.foldl (fun s d => s.putTree d.1 d.2) {}⟩ []
  | stage {s s' : StageState MemoryStore} {outputs : List SourceId} (hs : Pipeline s outputs)
      {τ : Type} {t : Transform MemoryStore τ} {own : τ} {id : RunId} {inputs : List SourceId}
      {output : SourceId} {o : RunOutput} (hnew : s.ambient.contains output = false)
      (ht : t.Spares fun ambient => ambient)
      (hcites : ∀ trees, inputs.mapM (read MemoryStore.store) s = .ok trees s →
        Job.Cites t id trees own s.ambient s.workspace)
      (hrun : run MemoryStore.store id inputs output t own s = .ok o s') :
      Pipeline s' (output :: outputs)

/-- The outputs are the generated documents, and what is in them rests on authored ones. -/
structure Rests (s : StageState MemoryStore) (outputs : List SourceId) : Prop where
  indexable : s.workspace.heap.Indexable
  generated : ∀ id, s.ambient.isGenerated id = true ↔ id ∈ outputs
  covers : ∀ id ∈ outputs, s.ambient.Covers s.workspace.heap id
  grounds : s.ambient.Grounds outputs

variable {s : StageState MemoryStore} {outputs : List SourceId}

theorem rests_authored {w : Workspace} (hw : w.heap.Indexable) (docs : List (SourceId × Tree)) :
    Rests ⟨w, docs.foldl (fun s d => s.putTree d.1 d.2) {}⟩ [] := by
  have hkeep : ∀ (docs : List (SourceId × Tree)) (s : MemoryStore),
      (docs.foldl (fun s d => s.putTree d.1 d.2) s).mappings = s.mappings := by
    intro docs
    induction docs with
    | nil => exact fun _ => rfl
    | cons d rest ih =>
      intro s
      exact (ih _).trans (MemoryStore.putsTrees s _ d.1 d.2 rfl).2
  refine ⟨hw, fun id => ?_, fun id hid => absurd hid List.not_mem_nil, .nil⟩
  have hnone : (docs.foldl (fun s d => s.putTree d.1 d.2) ({} : MemoryStore)).mappings id = none :=
    congrFun (hkeep docs {}) id
  simp [MemoryStore.isGenerated, hnone]

theorem Rests.among (hs : Rests s outputs) {id : SourceId} {tree : Tree}
    (htree : s.ambient.tree? id = some tree) : s.ambient.Among outputs id :=
  ⟨MemoryStore.contains_of_tree? htree, (hs.generated id).mp⟩

/-- A place that is there is accounted for, unless it is a root. Containers may have come in since. -/
theorem Rests.accounts (hs : Rests s outputs) {h : Heap} (hg : s.workspace.heap.Grows h)
    {id : SourceId} {tree : Tree} (htree : s.ambient.tree? id = some tree) {place : Pointer}
    (hr : (h.resolve? tree place).isSome) (hplace : place.isRoot = false) :
    s.ambient.Accounts id place.tokens := by
  intro hgenerated
  have hcovers := hs.covers id ((hs.generated id).mp hgenerated)
  exact (hcovers.grows hg).accounts htree hplace hr hgenerated

/-- What is not accounted for is a root, or it is not there. -/
theorem Rests.lacks (hs : Rests s outputs) {id : SourceId} {place : Pointer}
    (hnot : ¬ s.ambient.Accounts id place.tokens) :
    place.isRoot = true ∨ ∀ tree, s.ambient.tree? id = some tree →
      s.workspace.heap.resolve? tree place = none := by
  cases hplace : place.isRoot with
  | true => exact .inl rfl
  | false =>
    refine .inr fun tree htree => Option.not_isSome_iff_eq_none.mp fun hsome => ?_
    exact hnot (hs.accounts (.refl _) htree hsome hplace)

/-- A new document whose members are all mapped, by mappings that have their sources. -/
theorem Rests.put (hs : Rests s outputs) {output : SourceId}
    (hnew : s.ambient.contains output = false) {w : Workspace} (hw : w.heap.Indexable)
    (hg : s.workspace.heap.Grows w.heap) {root : ContainerId} {ms : List Mapping}
    (hroot : root < w.heap.size)
    (hcovers : ∀ key, (w.heap.member? (.container root) key).isSome →
      ∃ m ∈ ms, m.generated.tokens = [key.token])
    (hdistinct : ms.Pairwise fun m n => m.generated.tokens ≠ n.generated.tokens)
    (horigins : ∀ m ∈ ms, s.ambient.Sourced outputs ms m) :
    Rests ⟨w, (s.ambient.putTree output (.container root)).putMappings output ms⟩
      (output :: outputs) := by
  have hput := s.ambient.document?_output output (.container root) ms
  have hother := fun id (hid : s.ambient.contains id = true) =>
    s.ambient.document?_of_contains output (.container root) ms hnew hid
  have hnotin : output ∉ outputs := by
    intro hmem
    have hcontains := (hs.covers output hmem).contains
    rw [hnew] at hcontains
    cases hcontains
  refine ⟨hw, fun id => ?_, fun id hid => ?_, ?_⟩
  · rw [MemoryStore.isGenerated_output, hs.generated, List.mem_cons]
  · rcases List.mem_cons.mp hid with rfl | hid
    · exact ⟨root, ms, hput, hroot, hcovers⟩
    · have hold := hs.covers id hid
      exact (hold.grows hg).congr (hother id hold.contains)
  · have hmappings : ((s.ambient.putTree output (.container root)).putMappings output ms).mappings
        output = some ms := by simp [MemoryStore.mappings, hput]
    exact .cons hnotin hmappings hdistinct (fun m hm => (horigins m hm).congr hother)
      (hs.grounds.congr hother)

/-- A stage whose origins are there rests on authored documents like those before it. -/
theorem Rests.stage (hs : Rests s outputs) {τ : Type} {t : Transform MemoryStore τ} {own : τ}
    {id : RunId} {inputs : List SourceId} {output : SourceId} {o : RunOutput}
    {s' : StageState MemoryStore} (hnew : s.ambient.contains output = false)
    (ht : t.Spares fun ambient => ambient)
    (hcites : ∀ trees, inputs.mapM (read MemoryStore.store) s = .ok trees s →
      Job.Cites t id trees own s.ambient s.workspace)
    (hrun : run MemoryStore.store id inputs output t own s = .ok o s') :
    Rests s' (output :: outputs) := by
  obtain ⟨trees, s₁, hread, hjob, rfl⟩ := run_ok_cases hrun
  have htrees := tree?_of_mapM_read hread
  obtain ⟨j, hr, rfl⟩ := result_of_runJob hjob
  obtain ⟨p, hsteps, rfl, hheap⟩ := Job.exists_steps_of_result (hcites trees hread) hr
  have hstart := Run.sound_start id trees s.workspace hs.indexable
  have hsound := (hstart.steps hsteps.steps).state
  have hgrows := Run.grows_of_steps id trees s.workspace hsteps.steps
  rw [← hheap] at hgrows
  simp only [Job.ambient_of_result ht hr]
  refine hs.put hnew (w := j.workspace) ?_ hgrows ?_ (fun key hkey => ?_)
    hsound.accounted.distinct (fun m hm => ?_)
  · rw [hheap]
    exact hsound.placed.indexable
  · rw [hheap]
    exact hsound.placed.lt_size _ [] hsound.placed.root
  · rw [hheap, ← RunState.memberAt_token] at hkey
    exact hsound.accounted.covers _ [] key.token hsound.placed.root hkey
  · rcases hsteps.exists_finds hstart hm with
      hnone | ⟨q, hq, top, htop, ⟨tree, hinput, hplace⟩, hsource, rest, hgenerated, horigin⟩
    · rw [Run.mappings_start] at hnone
      cases hnone
    · rw [hq.fixed.2.2] at hinput
      have htree := htrees _ (OrderedMap.mem_of_get?_ofList hinput)
      rw [← hsource] at htree
      refine ⟨hs.among htree, ?_⟩
      cases hroot : top.origin.isRoot with
      | false =>
        have hgrows' := Run.grows_of_steps id trees s.workspace hq
        rw [horigin]
        exact .inl ((hs.accounts hgrows' htree hplace hroot).below (List.prefix_append _ _))
      | true =>
        have hnil : top.origin.tokens = [] := congrArg (List.map _) (List.isEmpty_iff.mp hroot)
        refine .inr ⟨top, htop, hsource.symm, hroot, ?_⟩
        rw [hgenerated, horigin, hnil, List.nil_append]

theorem Pipeline.rests (hs : Pipeline s outputs) : Rests s outputs := by
  induction hs with
  | authored hw docs => exact rests_authored hw docs
  | stage _ hnew ht hcites hrun ih => exact ih.stage hnew ht hcites hrun

/-- The leaf is in a generated document, and nothing lies behind it there: it is the root of the
document, or a place that the document does not have. The position above it goes back to it because some
write has that root as its origin. -/
structure Stops (s : StageState MemoryStore) (t : BlameTree) (l : Position) : Prop where
  generated : s.ambient.isGenerated l.source = true
  lacks : l.pointer.isRoot = true ∨ ∀ tree, s.ambient.tree? l.source = some tree →
    s.workspace.heap.resolve? tree l.pointer = none
  behindRoot : ∃ q above, BlameTree.Has [] t (q :: above) (.leaf l) ∧ s.ambient.BehindRoot q l

/-- Below the root of every document, blame is resolved if the depth allows as many stages as there are
outputs. It ends in authored documents, unless it comes upon a write whose origin is the root of a
generated document. -/
theorem authored_of_trace (hs : Pipeline s outputs) {p : Position} {tree : Tree}
    (htree : s.ambient.tree? p.source = some tree) (hroot : p.pointer.isRoot = false)
    (hr : (s.workspace.heap.resolve? tree p.pointer).isSome)
    {config : BlameConfig} (hdepth : outputs.length ≤ config.maxDepth.toNat) :
    ∃ t, BlameTree.trace s.ambient.behind config p = .ok t ∧
      ∀ l ∈ t.leaves, s.ambient.contains l.source = true ∧
        (s.ambient.isGenerated l.source = false ∨ Stops s t l) := by
  have hrests := hs.rests
  obtain ⟨t, ht, hnode, hends⟩ := hrests.grounds.resolves (hrests.among htree) config.lenient false
    hdepth fun a (ha : a ∈ ([] : List Position)) => absurd ha List.not_mem_nil
  refine ⟨t, ht, fun l hl => ?_⟩
  have hend := hends l (BlameTree.leaf_of_mem_leaves hl)
  refine ⟨hend.contains, ?_⟩
  cases hgenerated : s.ambient.isGenerated l.source with
  | false => exact .inl rfl
  | true =>
    have hnot : ¬ s.ambient.Accounts l.source l.pointer.tokens := by
      intro ha
      rw [hend.authored ha] at hgenerated
      cases hgenerated
    refine .inr ⟨hgenerated, hrests.lacks hnot, ?_⟩
    rcases hend.reached with ha | rfl | hbehind
    · exact absurd ha hnot
    · -- the tree has no other node, but its position is mapped
      obtain rfl : l = p := hnode
      exact absurd (hrests.accounts (.refl _) htree hr hroot) hnot
    · exact hbehind

/-- Writes members of the output for each input: a name, a place of the input as the origin, and the
value. -/
def quoting (quotes : List (String × Pointer × Tree)) : Transform MemoryStore Unit where
  process root _ _ :=
    quotes.forM fun (name, place, v) => Hook.liftRun (Run.place root (.key name) place v false)

/-- The root has been handed out, and all inputs have what is quoted. -/
structure Quotable (quotes : List (String × Pointer × Tree)) (h : HookState MemoryStore Unit)
    (issued : List Proxy) : Prop where
  root : h.run.root ∈ issued
  sink : h.run.root.sink.table = h.run.table
  finds : ∀ e ∈ h.run.inputs.entries, ∀ q ∈ quotes, h.runState.Finds e.1 q.2.1

section Quoting

variable {quotes : List (String × Pointer × Tree)} {h h' : HookState MemoryStore Unit}
  {issued issued' : List Proxy}

theorem Quotable.steps (hk : Quotable quotes h issued)
    (hsteps : Run.Steps ⟨h.runState, issued⟩ ⟨h'.runState, issued'⟩) :
    Quotable quotes h' issued' := by
  obtain ⟨hroot, htable, hinputs⟩ : h'.run.root = h.run.root ∧ h'.run.table = h.run.table ∧
      h'.run.inputs = h.run.inputs := hsteps.fixed
  refine ⟨hsteps.root_mem hk.root, ?_, fun e he q hq => ?_⟩
  · rw [hroot, htable]
    exact hk.sink
  · rw [hinputs] at he
    exact hsteps.finds (hk.finds e he q hq)

theorem stepsBy_quotes (hk : Quotable quotes h issued) {root : Proxy} (hroot : h.run.root = root)
    {e : SourceId × Tree} (he : e ∈ h.run.inputs.entries) (hcurrent : h.run.current = some e.1) :
    (quotes.forM fun (name, place, v) =>
      (Hook.liftRun (Run.place root (.key name) place v false) : Hook _ _ Unit)).StepsBy
        Run.CitedStep h issued fun _ _ _ => True := by
  induction quotes generalizing h issued with
  | nil => exact Hook.stepsBy_pure trivial
  | cons q rest ih =>
    subst hroot
    have hfinds := hk.finds e he q List.mem_cons_self
    have hplaced := Hook.stepsBy_place hk.root hk.sink hcurrent hfinds (.key q.1) q.2.2 false
    refine (hplaced.mono fun _ h' issued' hcited hkept => ?_).bind
      (P := fun _ h' issued' => Quotable rest h' issued' ∧ h'.run.root = h.run.root ∧
        e ∈ h'.run.inputs.entries ∧ h'.run.current = some e.1)
      fun _ h' issued' ⟨hk', hroot', he', hcurrent'⟩ => ih hk' hroot' he' hcurrent'
    have hsteps := Run.CitedSteps.steps hcited
    have hk' := hk.steps hsteps
    obtain ⟨hroot', _, hinputs⟩ : h'.run.root = h.run.root ∧ h'.run.table = h.run.table ∧
        h'.run.inputs = h.run.inputs := hsteps.fixed
    refine ⟨⟨hk'.root, hk'.sink, fun e' he' q' hq' => ?_⟩, hroot', ?_, hkept.2.trans hcurrent⟩
    · exact hk'.finds e' he' q' (List.mem_cons_of_mem _ hq')
    · rwa [hinputs]

theorem quoting_cites (quotes : List (String × Pointer × Tree)) :
    (quoting quotes).Cites (Quotable quotes) := by
  refine ⟨fun h issued hk => Hook.stepsBy_pure hk, fun h issued hk e he => ?_,
    fun h issued hk => Hook.stepsBy_pure ⟨hk.root, hk.sink, hk.finds⟩⟩
  have hturned : Quotable quotes (Job.turned h e.1 e.2) issued := ⟨hk.root, hk.sink, hk.finds⟩
  refine (stepsBy_quotes hturned rfl he rfl).mono fun _ _ _ hcited _ => ?_
  exact hturned.steps (Run.CitedSteps.steps hcited)

end Quoting

/-- A stage that quotes places of its only input. -/
theorem Pipeline.quoting (hs : Pipeline s outputs) {source output : SourceId} {tree : Tree}
    {quotes : List (String × Pointer × Tree)} (htree : s.ambient.tree? source = some tree)
    (hquotes : ∀ q ∈ quotes, (s.workspace.heap.resolve? tree q.2.1).isSome)
    (hnew : s.ambient.contains output = false)
    (hrun : succeeds (run MemoryStore.store default [source] output (quoting quotes) () s)) :
    Pipeline (after (run MemoryStore.store default [source] output (quoting quotes) () s))
      (output :: outputs) := by
  have hspares : (Stage.quoting quotes).Spares fun ambient => ambient :=
    ⟨Hook.spares_pure (), fun _ _ _ => Hook.spares_forM (fun _ => Hook.spares_liftRun _) quotes,
      Hook.spares_pure ()⟩
  obtain ⟨o, hok⟩ := eq_ok_of_succeeds hrun
  refine .stage hs hnew hspares (fun trees hread => ?_) hok
  rw [mapM_read_singleton (MemoryStore.getTree_eq_ok_iff.mpr htree)] at hread
  cases hread
  have hgrows := Run.grows_start default [(source, tree)] s.workspace
  have hready : Quotable quotes
      (Job.launch default [(source, tree)] () s.ambient s.workspace).hookState
      [(Run.start default [(source, tree)] s.workspace).run.root] := by
    refine ⟨List.mem_singleton_self _, rfl, fun e (he : e ∈ [(source, tree)]) q hq => ?_⟩
    obtain rfl := List.mem_singleton.mp he
    obtain ⟨v, hv⟩ := Option.isSome_iff_exists.mp (hquotes q hq)
    refine ⟨tree, ?_, Option.isSome_iff_exists.mpr ⟨v, hgrows.extends.follow? hv⟩⟩
    exact (OrderedMap.get?_insert _ _ _ _).trans (if_pos rfl)
  exact (Job.stepsBy_hooks (quoting_cites quotes) hready).mono fun _ _ _ _ _ => trivial

/-- A store with an authored document, and a mapping table that is not of any run. -/
def authored : StageState MemoryStore :=
  ⟨{ heap := ⟨#[.object (.ofList [("a", .null)])]⟩, tables := #[{}] },
    MemoryStore.putTree {} ⟨"d1"⟩ (.container 0)⟩

/-- A stage quotes a member of the authored document. -/
def quotedOnce : StageState MemoryStore :=
  after (run MemoryStore.store default [⟨"d1"⟩] ⟨"o1"⟩ (quoting [("x", ⟨[.key "a"]⟩, .null)]) ()
    authored)

/-- Another one quotes the root and a member of what the first has generated. What it writes for the root
has other members than this. -/
def quotedTwice : StageState MemoryStore :=
  after (run MemoryStore.store default [⟨"o1"⟩] ⟨"o2"⟩
    (quoting [("x", .root, .container 0), ("y", ⟨[.key "x"]⟩, .null)]) () quotedOnce)

theorem pipeline_quotedTwice : Pipeline quotedTwice [⟨"o2"⟩, ⟨"o1"⟩] := by
  have hindexable : authored.workspace.heap.Indexable := by decide +kernel
  have hstart : Pipeline authored [] := .authored hindexable [(⟨"d1"⟩, .container 0)]
  have htree₁ : authored.ambient.tree? ⟨"d1"⟩ = some (.container 0) := rfl
  have htree₂ : quotedOnce.ambient.tree? ⟨"o1"⟩ = some (.container 1) := by decide +kernel
  have honce : Pipeline quotedOnce [⟨"o1"⟩] :=
    hstart.quoting htree₁ (by decide +kernel) (by decide +kernel) (by decide +kernel)
  exact honce.quoting htree₂ (by decide +kernel) (by decide +kernel) (by decide +kernel)

/-- Where blame of a position ends in two stages. -/
def blameEnds (s : StageState MemoryStore) (p : Position) : Option (List Position) :=
  match BlameTree.trace s.ambient.behind { maxDepth := 2 } p with
  | .ok t => some t.leaves
  | .error _ => none

/-- What quotes a member goes back to the authored document. What quotes a root, and what is below it,
stops in the first output, which does not have the second place. -/
theorem authored_of_trace_quotedTwice :
    let places : List Pointer := [⟨[.key "y"]⟩, ⟨[.key "x"]⟩, ⟨[.key "x", .key "a"]⟩]
    places.map (fun place => blameEnds quotedTwice ⟨⟨"o2"⟩, place, none⟩) =
        [some [⟨⟨"d1"⟩, ⟨[.key "a"]⟩, none⟩], some [⟨⟨"o1"⟩, .root, none⟩],
          some [⟨⟨"o1"⟩, ⟨[.key "a"]⟩, none⟩]] ∧
      ∀ place ∈ places, ∃ t,
        BlameTree.trace quotedTwice.ambient.behind { maxDepth := 2 } ⟨⟨"o2"⟩, place, none⟩ = .ok t ∧
        ∀ l ∈ t.leaves, quotedTwice.ambient.contains l.source = true ∧
          (quotedTwice.ambient.isGenerated l.source = false ∨ Stops quotedTwice t l) := by
  intro places
  have htree : quotedTwice.ambient.tree? ⟨"o2"⟩ = some (.container 2) := by decide +kernel
  have hplaces : ∀ place ∈ places, place.isRoot = false ∧
      (quotedTwice.workspace.heap.resolve? (.container 2) place).isSome := by decide +kernel
  refine ⟨by decide +kernel, fun place hplace => ?_⟩
  obtain ⟨hroot, hr⟩ := hplaces place hplace
  exact authored_of_trace pipeline_quotedTwice (p := ⟨⟨"o2"⟩, place, none⟩) htree hroot hr (by decide)

/-- Quotes a member of its inputs through a proxy over the output root that delivers to another table. -/
def bypassing : Transform MemoryStore Unit where
  process root _ _ := Hook.liftRun
    (Run.place { root with sink := ⟨0, false⟩ } (.key "x") ⟨[.key "a"]⟩ .null false)

/-- A stage whose writes are not recorded for its output. -/
def bypassed : EStateM.Result RunError (StageState MemoryStore) RunOutput :=
  run MemoryStore.store default [⟨"d1"⟩] ⟨"o1"⟩ bypassing () authored

/-- Blame of places that are there stops in generated documents: where the root of one is quoted, below
that, and where a proxy delivers past the run. -/
theorem not_authored_of_trace :
    (Pipeline quotedTwice [⟨"o2"⟩, ⟨"o1"⟩] ∧ quotedTwice.ambient.isGenerated ⟨"o1"⟩ = true ∧
      quotedTwice.ambient.tree? ⟨"o2"⟩ = some (.container 2) ∧
      (quotedTwice.workspace.heap.resolve? (.container 2) ⟨[.key "x", .key "a"]⟩).isSome ∧
      blameEnds quotedTwice ⟨⟨"o2"⟩, ⟨[.key "x"]⟩, none⟩ = some [⟨⟨"o1"⟩, .root, none⟩] ∧
      blameEnds quotedTwice ⟨⟨"o2"⟩, ⟨[.key "x", .key "a"]⟩, none⟩ =
        some [⟨⟨"o1"⟩, ⟨[.key "a"]⟩, none⟩]) ∧
    succeeds bypassed ∧ (after bypassed).ambient.isGenerated ⟨"o1"⟩ = true ∧
      (after bypassed).ambient.tree? ⟨"o1"⟩ = some (.container 1) ∧
      ((after bypassed).workspace.heap.resolve? (.container 1) ⟨[.key "x"]⟩).isSome ∧
      blameEnds (after bypassed) ⟨⟨"o1"⟩, ⟨[.key "x"]⟩, none⟩ =
        some [⟨⟨"o1"⟩, ⟨[.key "x"]⟩, none⟩] := by
  refine ⟨⟨pipeline_quotedTwice, ?_⟩, ?_⟩ <;> decide +kernel

end Stage

end Lineage
