import Lineage.Proofs.Run.Frame
import Lineage.Proofs.Store.Documents
import Lineage.Run.Stage

/-! Failed stages. A stage asks its store for the inputs, runs its hooks, puts the output tree, and
puts the mappings, in this order, and takes nothing back. When it fails, a store is as the hooks left
it, but for the output tree if only the mappings were refused. -/

namespace Lineage

variable {σ τ α β γ : Type}

namespace Hook

/-- Whether the hook fails or not, what can be seen of its surroundings stays the same. -/
def Spares (view : σ → γ) (m : Hook σ τ α) : Prop :=
  ∀ h, view (after (m h)).ambient = view h.ambient

variable {view : σ → γ} {m : Hook σ τ α}

theorem Spares.bind {f : α → Hook σ τ β} (hm : Spares view m) (hf : ∀ a, Spares view (f a)) :
    Spares view (m >>= f) := by
  intro h
  have hfirst := hm h
  cases hr : m h with
  | error e h' =>
    rw [bind_of_error hr]
    rwa [hr] at hfirst
  | ok a h' =>
    rw [bind_of_ok hr, hf a h']
    rwa [hr] at hfirst

theorem spares_get_bind {f : HookState σ τ → Hook σ τ β} (hf : ∀ h, Spares view (f h)) :
    Spares view (get >>= f) := fun h => hf h h

theorem spares_pure (a : α) : Spares view (pure a : Hook σ τ α) := fun _ => rfl

theorem spares_forM {f : α → Hook σ τ Unit} (hf : ∀ a, Spares view (f a)) (xs : List α) :
    Spares view (xs.forM f) := by
  induction xs with
  | nil => exact spares_pure ()
  | cons x rest ih => exact (hf x).bind fun _ => ih

end Hook

/-- The hooks of the transform spare its surroundings. -/
structure Transform.Spares (view : σ → γ) (t : Transform σ τ) : Prop where
  prepare : Hook.Spares view t.prepare
  process : ∀ root visit nodes, Hook.Spares view (t.process root visit nodes)
  conclude : Hook.Spares view t.conclude

namespace Job

variable {view : σ → γ} {t : Transform σ τ}

theorem spares_processInputs (ht : t.Spares view) (inputs : List (SourceId × Tree)) :
    Hook.Spares view (processInputs t inputs) := by
  induction inputs with
  | nil => exact Hook.spares_pure ()
  | cons input rest ih =>
    obtain ⟨source, tree⟩ := input
    refine Hook.Spares.bind (fun _ => rfl) fun _ => Hook.Spares.bind (fun _ => rfl) ?_
    rintro ⟨visit, nodes⟩
    exact Hook.spares_get_bind fun h => (ht.process h.run.root visit nodes).bind fun _ => ih

theorem spares_hooks (ht : t.Spares view) : Hook.Spares view (hooks t) := by
  refine ht.prepare.bind fun _ => Hook.spares_get_bind fun h => ?_
  refine (spares_processInputs ht _).bind fun _ => ?_
  exact Hook.Spares.bind (fun _ => rfl) fun _ => ht.conclude

/-- A new job leaves the heap and the surroundings as its hooks do. -/
theorem after_result {s : JobState σ τ} (hs : s.job.status = .pending) :
    (after (result t s)).workspace.heap = (after (hooks t s.hookState)).workspace.heap ∧
      (after (result t s)).ambient = (after (hooks t s.hookState)).ambient := by
  rcases result_cases (t := t) hs with ⟨e, h, hh, hr⟩ | ⟨h, hh, hr⟩
  · rw [hh, hr]
    exact ⟨rfl, rfl⟩
  · rw [hh, hr]
    exact ⟨rfl, rfl⟩

end Job

namespace Stage

variable {s s' : StageState σ}

theorem query_cases (f : σ → Except StoreError α) (s : StageState σ) :
    (∃ e, f s.ambient = .error e ∧ query f s = .error (.store e) s) ∨
    ∃ a, f s.ambient = .ok a ∧ query f s = .ok a s := by
  unfold query
  rw [get_bind]
  cases hf : f s.ambient with
  | error e => exact .inl ⟨e, rfl, rfl⟩
  | ok a => exact .inr ⟨a, rfl, rfl⟩

theorem update_cases (f : σ → Except StoreError σ) (s : StageState σ) :
    (∃ e, f s.ambient = .error e ∧ update f s = .error (.store e) s) ∨
    ∃ a, f s.ambient = .ok a ∧ update f s = .ok () { s with ambient := a } := by
  rcases query_cases f s with ⟨e, hf, hq⟩ | ⟨a, hf, hq⟩
  · exact .inl ⟨e, hf, bind_of_error hq⟩
  · exact .inr ⟨a, hf, (bind_of_ok hq).trans rfl⟩

/-- Reads one input. -/
def read (store : DocumentStore σ) (input : SourceId) : StageM σ (SourceId × Tree) := do
  return (input, ← query (store.getTree · input))

/-- Reading changes nothing. -/
theorem after_mapM_read (store : DocumentStore σ) (inputs : List SourceId) (s : StageState σ) :
    after (inputs.mapM (read store) s) = s := by
  induction inputs with
  | nil => rfl
  | cons input rest ih =>
    rw [List.mapM_cons]
    have hread : after (read store input s) = s := by
      rcases query_cases (store.getTree · input) s with ⟨e, _, hq⟩ | ⟨t, _, hq⟩
      · rw [read, bind_of_error hq, after]
      · rw [read, bind_of_ok hq]
        rfl
    cases hr : read store input s with
    | error e s' =>
      rw [hr] at hread
      rw [bind_of_error hr]
      exact hread
    | ok t s' =>
      rw [hr] at hread
      obtain rfl : s = s' := hread.symm
      rw [bind_of_ok hr]
      cases hrest : rest.mapM (read store) s with
      | error e s'' =>
        rw [hrest] at ih
        rw [bind_of_error hrest]
        exact ih
      | ok ts s'' =>
        rw [hrest] at ih
        rw [bind_of_ok hrest]
        exact ih

/-- How a stage fails: an input is not read, the hooks fail, the output tree is refused, or the
mappings are refused when the output tree is already in place. -/
theorem run_error_cases {store : DocumentStore σ} {id : RunId} {inputs : List SourceId}
    {output : SourceId} {t : Transform σ τ} {own : τ} {e : RunError}
    (h : run store id inputs output t own s = .error e s') :
    s' = s ∨ ∃ trees, inputs.mapM (read store) s = .ok trees s ∧
      (runJob id trees t own s = .error e s' ∨
      ∃ out s₁, runJob id trees t own s = .ok out s₁ ∧
        (s' = s₁ ∨ ∃ a cause, store.putTree s₁.ambient output out.tree = .ok a ∧
          store.putMappings a output out.mappings = .error cause ∧ e = .store cause ∧
          s' = { s₁ with ambient := a })) := by
  change (inputs.mapM (read store) >>= fun trees => runJob id trees t own >>= fun result =>
    update (store.putTree · output result.tree) >>= fun _ =>
    update (store.putMappings · output result.mappings) >>= fun _ => pure result) s = _ at h
  have hread := after_mapM_read store inputs s
  cases hr : inputs.mapM (read store) s with
  | error e₀ s₀ =>
    rw [hr] at hread
    rw [bind_of_error hr] at h
    cases h
    exact .inl hread
  | ok trees s₀ =>
    rw [hr] at hread
    obtain rfl : s = s₀ := hread.symm
    refine .inr ⟨trees, rfl, ?_⟩
    rw [bind_of_ok hr] at h
    cases hj : runJob id trees t own s with
    | error e₁ s₁ =>
      rw [bind_of_error hj] at h
      cases h
      exact .inl rfl
    | ok out s₁ =>
      rw [bind_of_ok hj] at h
      refine .inr ⟨out, s₁, rfl, ?_⟩
      rcases update_cases (store.putTree · output out.tree) s₁ with ⟨e₂, _, hu⟩ | ⟨a, ha, hu⟩
      · rw [bind_of_error hu] at h
        cases h
        exact .inl rfl
      · rw [bind_of_ok hu] at h
        rcases update_cases (store.putMappings · output out.mappings) { s₁ with ambient := a } with
          ⟨e₃, he₃, hu'⟩ | ⟨b, _, hu'⟩
        · rw [bind_of_error hu'] at h
          cases h
          exact .inr ⟨a, e₃, ha, he₃, rfl, rfl⟩
        · rw [bind_of_ok hu'] at h
          cases h

theorem after_runJob (id : RunId) (trees : List (SourceId × Tree)) (t : Transform σ τ) (own : τ) :
    after (runJob id trees t own s) =
      ⟨(after (Job.result t (Job.launch id trees own s.ambient s.workspace))).workspace,
        (after (Job.result t (Job.launch id trees own s.ambient s.workspace))).ambient⟩ := by
  unfold runJob Job.launch
  obtain ⟨job, workspace⟩ := Job.create id trees own s.workspace
  dsimp only
  cases Job.result t ⟨workspace, s.ambient, job⟩ <;> rfl

/-- What a job on behalf of a stage leaves, when it is confined and its transform spares the store. -/
theorem runJob_spares {view : σ → γ} {t : Transform σ τ} (hview : t.Spares view) {id : RunId}
    {trees : List (SourceId × Tree)} {own : τ}
    (hc : Job.Confined t id trees own s.ambient s.workspace) :
    s.workspace.heap.Grows (after (runJob id trees t own s)).workspace.heap ∧
      view (after (runJob id trees t own s)).ambient = view s.ambient := by
  obtain ⟨hheap, hambient⟩ :=
    Job.after_result (t := t) (s := Job.launch id trees own s.ambient s.workspace) rfl
  simp only [after_runJob, hheap, hambient]
  exact ⟨hc.grows, Job.spares_hooks hview _⟩

/-- A failed stage changes no container that was there before and no mapping table, and it changes no
tree unless the mappings were refused: then the tree of the output is that of the run. Its hooks may ask
the run for anything, through whatever proxies; past the run they write only through those that it has
handed out. -/
theorem documents_of_run_error {store : DocumentStore σ} {tree : σ → SourceId → Option Tree}
    {table : σ → SourceId → Option (List Mapping)} (hstore : store.PutsTrees tree table)
    {t : Transform σ τ} (hview : t.Spares fun a => (tree a, table a)) {id : RunId}
    {inputs : List SourceId} {output : SourceId} {own : τ} {e : RunError}
    (hc : ∀ trees, inputs.mapM (read store) s = .ok trees s →
      Job.Confined t id trees own s.ambient s.workspace)
    (h : run store id inputs output t own s = .error e s') :
    s.workspace.heap.Grows s'.workspace.heap ∧ table s'.ambient = table s.ambient ∧
      (tree s'.ambient = tree s.ambient ∨
        ∃ trees out s₁ a cause, runJob id trees t own s = .ok out s₁ ∧
          store.putTree s₁.ambient output out.tree = .ok a ∧
          store.putMappings a output out.mappings = .error cause ∧ e = .store cause ∧
          ∀ other, tree s'.ambient other =
            if other = output then some out.tree else tree s.ambient other) := by
  rcases run_error_cases h with rfl | ⟨trees, hread, hjob | ⟨out, s₁, hjob, hlast⟩⟩
  · exact ⟨.refl _, rfl, .inl rfl⟩
  · obtain ⟨hg, hv⟩ := runJob_spares hview (hc trees hread)
    rw [hjob] at hg hv
    exact ⟨hg, (Prod.ext_iff.mp hv).2, .inl (Prod.ext_iff.mp hv).1⟩
  · obtain ⟨hg, hv⟩ := runJob_spares hview (hc trees hread)
    rw [hjob] at hg hv
    have htree : tree s₁.ambient = tree s.ambient := (Prod.ext_iff.mp hv).1
    have htable : table s₁.ambient = table s.ambient := (Prod.ext_iff.mp hv).2
    rcases hlast with rfl | ⟨a, cause, hput, hrefused, he, rfl⟩
    · exact ⟨hg, htable, .inl htree⟩
    · obtain ⟨htree', htable'⟩ := hstore _ _ _ _ hput
      refine ⟨hg, htable'.trans htable, .inr ⟨trees, out, s₁, a, cause, hjob, hput, hrefused, he, ?_⟩⟩
      intro other
      rw [htree' other, htree]

/-- A store that takes no mappings. -/
def refusing : DocumentStore MemoryStore :=
  { MemoryStore.store with putMappings := fun _ _ _ => .error (.internal "no tables") }

theorem refusing_putsTrees : refusing.PutsTrees MemoryStore.tree? MemoryStore.mappings :=
  MemoryStore.putsTrees

theorem spares_concluding (actions : List Action) (view : σ → γ) :
    (.concluding actions : Transform σ τ).Spares view :=
  ⟨Hook.spares_pure (), fun _ _ _ => Hook.spares_pure (), Hook.spares_forM (fun _ _ => rfl) actions⟩

/-- A store with an authored document and one that has been generated from it. -/
def archive : StageState MemoryStore :=
  let trees := (MemoryStore.putTree {} ⟨"d1"⟩ (.container 0)).putTree ⟨"o1"⟩ (.container 1)
  ⟨{ heap := ⟨#[.object (.ofList [("a", .null)]), .object (.ofList [("x", .null)])]⟩ },
    trees.putMappings ⟨"o1"⟩ [{ generated := ⟨[.key "x"]⟩, origin := ⟨[.key "a"]⟩, source := ⟨"d1"⟩ }]⟩

/-- What is read from the archive when the authored document is the input. -/
def archived : List (SourceId × Tree) := [(⟨"d1"⟩, .container 0)]

/-- The input is put into the output as it is, an object is made beside it and filled, and proxies that
the run has not handed out are tried: the run refuses the one over the input, and takes the other. -/
def revising : List Action :=
  let root := (Run.start default archived archive.workspace).run.root
  let child := root.child (.key "b") 3
  [.place root (.key "a") .root (.container 0) false, .allocateObject root (.key "b") .root,
    .put child (.key "c") (.tagged { value := .null, origin := some .root }),
    .openArray ⟨0, .root, ⟨"d1"⟩, root.sink⟩ (.key "y") .root,
    .openArray { child with location := ⟨[.key "elsewhere"]⟩ } (.key "d") .root]

/-- A stage whose output is there already: the new tree takes the place of the old one, and the old
mappings stay. -/
theorem documents_of_run_revising :
    ∃ e s, run refusing default [⟨"d1"⟩] ⟨"o1"⟩ (.concluding revising) () archive = .error e s ∧
      archive.workspace.heap.Grows s.workspace.heap ∧
      s.ambient.mappings = archive.ambient.mappings ∧
      s.ambient.tree? ⟨"d1"⟩ = some (.container 0) ∧ s.ambient.tree? ⟨"o1"⟩ = some (.container 2) ∧
      s.workspace.heap.entries (.container 2) =
        [(.key "a", .container 0), (.key "b", .container 3)] ∧
      s.workspace.heap.entries (.container 3) = [(.key "c", .null), (.key "d", .container 4)] := by
  have hread : [⟨"d1"⟩].mapM (read refusing) archive = .ok archived archive := rfl
  have hadmits : Run.AdmitsAll Progress.Confines
      (Job.readied default archived archive.workspace) revising := by decide +kernel
  have hfailed : ¬ succeeds
      (run refusing default [⟨"d1"⟩] ⟨"o1"⟩ (.concluding revising) () archive) := by decide +kernel
  have hentries : let heap := (after
      (run refusing default [⟨"d1"⟩] ⟨"o1"⟩ (.concluding revising) () archive)).workspace.heap
      heap.entries (.container 2) = [(.key "a", .container 0), (.key "b", .container 3)] ∧
        heap.entries (.container 3) = [(.key "c", .null), (.key "d", .container 4)] := by
    decide +kernel
  have htree : (after (run refusing default [⟨"d1"⟩] ⟨"o1"⟩ (.concluding revising) ()
      archive)).ambient.tree? ⟨"o1"⟩ = some (.container 2) := by decide +kernel
  cases hrun : run refusing default [⟨"d1"⟩] ⟨"o1"⟩ (.concluding revising) () archive with
  | ok out s => exact absurd (by rw [hrun]; rfl) hfailed
  | error e s =>
    rw [hrun] at hentries htree
    obtain ⟨hgrows, htable, hdocuments⟩ := documents_of_run_error refusing_putsTrees
      (spares_concluding revising _) (fun trees h => by
        cases hread.symm.trans h
        exact Job.confined_concluding hadmits) hrun
    refine ⟨e, s, rfl, hgrows, htable, ?_, htree, hentries⟩
    rcases hdocuments with hsame | ⟨trees, out, s₁, a, cause, _, _, _, _, hother⟩
    · rw [hsame]
      rfl
    · exact hother ⟨"d1"⟩

def idle : Transform σ Unit where
  process _ _ _ := pure ()

/-- Puts a tree into the store by itself, and fails. -/
def meddling : Transform MemoryStore Unit where
  process _ _ _ := pure ()
  conclude := do
    modify fun h => { h with ambient := h.ambient.putTree ⟨"d1"⟩ .null }
    throw (.transform "stop")

/-- Adds a member to its inputs, past the run, and fails. -/
def scribbling : Transform MemoryStore Unit where
  process _ _ _ := do
    let inputs := (← get).run.inputs.entries
    Hook.onWorkspace fun w =>
      ((), { w with heap := inputs.foldl (fun h e => (h.insert e.2 "x" .null).2) w.heap })
    throw (.transform "stop")

theorem run_not_atomic :
    (∃ e s, run refusing default [] ⟨"o1"⟩ idle () ⟨{}, {}⟩ = .error e s ∧
      MemoryStore.tree? {} ⟨"o1"⟩ = none ∧ s.ambient.tree? ⟨"o1"⟩ = some (.container 0)) ∧
    (∃ e s, run MemoryStore.store default [] ⟨"o1"⟩ meddling () ⟨{}, {}⟩ = .error e s ∧
      MemoryStore.tree? {} ⟨"d1"⟩ = none ∧ s.ambient.tree? ⟨"d1"⟩ = some .null) ∧
    ∃ e s, run MemoryStore.store default [⟨"d1"⟩] ⟨"o1"⟩ scribbling ()
        ⟨{ heap := ⟨#[.emptyObject]⟩ }, MemoryStore.putTree {} ⟨"d1"⟩ (.container 0)⟩ = .error e s ∧
      Heap.length ⟨#[.emptyObject]⟩ (.container 0) = 0 ∧
      s.workspace.heap.length (.container 0) = 1 :=
  ⟨⟨_, _, rfl, rfl, rfl⟩, ⟨_, _, rfl, rfl, rfl⟩, _, _, rfl, rfl, rfl⟩

end Stage

end Lineage
