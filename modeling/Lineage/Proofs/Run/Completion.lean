import Lineage.Proofs.Run.Copying
import Lineage.Proofs.Run.Stages

/-! Stages that succeed. A store in memory refuses nothing, so a stage succeeds when its inputs are there
and its job succeeds, and then the store holds the output with its mappings. -/

namespace Lineage

variable {σ τ α γ : Type} {view : σ → γ}

namespace Hook

theorem spares_liftRun (m : RunM α) : Spares view (liftRun m : Hook σ τ α) := by
  intro h
  unfold liftRun
  cases m ⟨h.workspace, h.run⟩ <;> rfl

theorem spares_forEntries (visit : TraversalId) (base : Pointer) {f : Node → Hook σ τ Unit}
    (hf : ∀ n, Spares view (f n)) (entries : List (Segment × Tree)) :
    Spares view (forEntries visit base f entries) := by
  induction entries with
  | nil => exact spares_pure ()
  | cons x rest ih => exact Spares.bind (fun _ => rfl) fun n => (hf n).bind fun _ => ih

theorem spares_forNodes (visit : TraversalId) (c : Cursor) {f : Node → Hook σ τ Unit}
    (hf : ∀ n, Spares view (f n)) : Spares view (forNodes visit c f) := by
  have hentries := spares_forEntries visit c.base hf c.rest
  unfold forNodes
  cases c.scalar with
  | none => exact (spares_pure ()).bind fun _ => hentries
  | some t => exact (hf _).bind fun _ => hentries

end Hook

namespace NodeTransform

variable {t : NodeTransform σ τ}

theorem spares_handle (hclaim : ∀ target visit n, Hook.Spares view (t.claim target visit n))
    (visit : TraversalId) (depth : Nat) (target : Proxy) (n : Node) :
    Hook.Spares view (t.handle visit depth target n) := by
  have hstep : ∀ {depth : Nat} (target : Proxy) (n : Node),
      (∀ child, Hook.Spares view (t.handleMembers visit depth child n)) →
        Hook.Spares view (t.handle visit depth target n) := by
    intro depth target n hmembers
    rw [handle_eq]
    refine (hclaim target visit n).bind fun claimed => ?_
    cases claimed with
    | true => exact Hook.spares_pure ()
    | false =>
      refine Hook.Spares.bind (fun _ => rfl) fun h => ?_
      cases n.value.isComposite with
      | false => exact Hook.spares_liftRun _
      | true => exact (Hook.spares_liftRun _).bind hmembers
  induction depth generalizing target n with
  | zero => exact hstep target n fun _ => Hook.spares_pure ()
  | succ depth ih =>
    refine hstep target n fun child => ?_
    exact Hook.Spares.bind (fun _ => rfl) fun h =>
      Hook.spares_forNodes visit (h.children n) (ih child)

/-- A transform spares its surroundings when its own hooks do. -/
theorem spares_toTransform (hprepare : Hook.Spares view t.prepare)
    (hclaim : ∀ target visit n, Hook.Spares view (t.claim target visit n))
    (hconclude : Hook.Spares view t.conclude) : t.toTransform.Spares view := by
  refine ⟨hprepare, fun root visit nodes => ?_, hconclude⟩
  exact Hook.Spares.bind (fun _ => rfl) fun h =>
    Hook.spares_forNodes visit nodes (spares_handle hclaim visit _ root)

end NodeTransform

/-- A job that spares its surroundings gives them back as they were. -/
theorem Job.ambient_of_result {t : Transform σ τ} (ht : t.Spares fun ambient => ambient) {id : RunId}
    {inputs : List (SourceId × Tree)} {own : τ} {ambient : σ} {w : Workspace} {o : RunOutput}
    {j : JobState σ τ} (hr : result t (launch id inputs own ambient w) = .ok o j) :
    j.ambient = ambient := by
  have hafter := (after_result (t := t) (s := launch id inputs own ambient w) rfl).2
  rw [hr] at hafter
  exact hafter.trans (spares_hooks ht _)

namespace Stage

variable {s : StageState σ}

/-- An input that is there is read. -/
theorem mapM_read_singleton {store : DocumentStore σ} {input : SourceId} {tree : Tree}
    (hread : store.getTree s.ambient input = .ok tree) :
    [input].mapM (read store) s = .ok [(input, tree)] s := by
  rcases query_cases (store.getTree · input) s with ⟨e, he, _⟩ | ⟨t, ht, hquery⟩
  · rw [hread] at he
    cases he
  · rw [hread] at ht
    cases ht
    have hok : read store input s = .ok (input, tree) s := (bind_of_ok hquery).trans rfl
    exact (bind_of_ok hok).trans rfl

theorem runJob_of_result {id : RunId} {inputs : List (SourceId × Tree)} {t : Transform σ τ} {own : τ}
    {o : RunOutput} {j : JobState σ τ}
    (hr : Job.result t (Job.launch id inputs own s.ambient s.workspace) = .ok o j) :
    runJob id inputs t own s = .ok o ⟨j.workspace, j.ambient⟩ := by
  have hlaunch : Job.launch id inputs own s.ambient s.workspace =
      ⟨(Job.create id inputs own s.workspace).2, s.ambient,
        (Job.create id inputs own s.workspace).1⟩ := rfl
  rw [hlaunch] at hr
  simp only [runJob, hr]

/-- What is read is in the store. -/
theorem tree?_of_mapM_read {s s' : StageState MemoryStore} {inputs : List SourceId}
    {trees : List (SourceId × Tree)} (h : inputs.mapM (read MemoryStore.store) s = .ok trees s') :
    ∀ e ∈ trees, s.ambient.tree? e.1 = some e.2 := by
  induction inputs generalizing trees s' with
  | nil =>
    cases h
    simp
  | cons input rest ih =>
    rw [List.mapM_cons] at h
    rcases query_cases (MemoryStore.store.getTree · input) s with ⟨e, _, hq⟩ | ⟨t, ht, hq⟩
    · have hread : read MemoryStore.store input s = .error (.store e) s := bind_of_error hq
      rw [bind_of_error hread] at h
      cases h
    · have hread : read MemoryStore.store input s = .ok (input, t) s := (bind_of_ok hq).trans rfl
      rw [bind_of_ok hread] at h
      cases hrest : rest.mapM (read MemoryStore.store) s with
      | error e s₁ =>
        rw [bind_of_error hrest] at h
        cases h
      | ok ts s₁ =>
        rw [bind_of_ok hrest] at h
        cases h
        intro e he
        rcases List.mem_cons.mp he with rfl | he
        · exact MemoryStore.getTree_eq_ok_iff.mp ht
        · exact ih hrest e he

theorem result_of_runJob {s₁ : StageState σ} {id : RunId} {inputs : List (SourceId × Tree)}
    {t : Transform σ τ} {own : τ} {o : RunOutput} (h : runJob id inputs t own s = .ok o s₁) :
    ∃ j, Job.result t (Job.launch id inputs own s.ambient s.workspace) = .ok o j ∧
      s₁ = ⟨j.workspace, j.ambient⟩ := by
  have hlaunch : Job.launch id inputs own s.ambient s.workspace =
      ⟨(Job.create id inputs own s.workspace).2, s.ambient,
        (Job.create id inputs own s.workspace).1⟩ := rfl
  rw [hlaunch]
  simp only [runJob] at h
  split at h
  · rename_i a j hr
    cases h
    exact ⟨j, hr, rfl⟩
  · cases h

/-- How a stage succeeds. -/
theorem run_ok_cases {s s' : StageState MemoryStore} {id : RunId} {inputs : List SourceId}
    {output : SourceId} {t : Transform MemoryStore τ} {own : τ} {o : RunOutput}
    (h : run MemoryStore.store id inputs output t own s = .ok o s') :
    ∃ trees s₁, inputs.mapM (read MemoryStore.store) s = .ok trees s ∧
      runJob id trees t own s = .ok o s₁ ∧
      s' = { s₁ with ambient := (s₁.ambient.putTree output o.tree).putMappings output o.mappings } := by
  change (inputs.mapM (read MemoryStore.store) >>= fun trees => runJob id trees t own >>= fun result =>
    update (MemoryStore.store.putTree · output result.tree) >>= fun _ =>
    update (MemoryStore.store.putMappings · output result.mappings) >>= fun _ => pure result) s = _ at h
  have hread := after_mapM_read MemoryStore.store inputs s
  cases hr : inputs.mapM (read MemoryStore.store) s with
  | error e s₀ =>
    rw [bind_of_error hr] at h
    cases h
  | ok trees s₀ =>
    rw [hr] at hread
    obtain rfl : s = s₀ := hread.symm
    rw [bind_of_ok hr] at h
    cases hj : runJob id trees t own s with
    | error e s₁ =>
      rw [bind_of_error hj] at h
      cases h
    | ok out s₁ =>
      rw [bind_of_ok hj] at h
      cases h
      exact ⟨trees, s₁, rfl, hj, rfl⟩

theorem run_of_runJob {s s₁ : StageState MemoryStore} {id : RunId} {inputs : List SourceId}
    {output : SourceId} {t : Transform MemoryStore τ} {own : τ} {trees : List (SourceId × Tree)}
    {o : RunOutput} (hread : inputs.mapM (read MemoryStore.store) s = .ok trees s)
    (hjob : runJob id trees t own s = .ok o s₁) :
    run MemoryStore.store id inputs output t own s =
      .ok o { s₁ with
        ambient := (s₁.ambient.putTree output o.tree).putMappings output o.mappings } :=
  (bind_of_ok hread).trans ((bind_of_ok hjob).trans rfl)

end Stage

namespace MemoryStore

variable (s : MemoryStore) (output : SourceId) (tree : Tree) (ms : List Mapping)

/-- After a stage the output has a tree and mappings. -/
theorem document?_output : ((s.putTree output tree).putMappings output ms).document? output =
    some ⟨some tree, some ms⟩ := by
  rw [putMappings, document?_update, if_pos rfl, putTree, document?_update, if_pos rfl]
  rfl

theorem document?_of_ne {other : SourceId} (h : other ≠ output) :
    ((s.putTree output tree).putMappings output ms).document? other = s.document? other := by
  rw [putMappings, document?_update, if_neg (Ne.symm h), putTree, document?_update,
    if_neg (Ne.symm h)]

/-- What is known about the documents that were there before is not touched. -/
theorem document?_of_contains (hnew : s.contains output = false) {id : SourceId}
    (hid : s.contains id = true) :
    ((s.putTree output tree).putMappings output ms).document? id = s.document? id := by
  refine s.document?_of_ne output tree ms ?_
  rintro rfl
  rw [hnew] at hid
  cases hid

theorem isGenerated_output (id : SourceId) :
    ((s.putTree output tree).putMappings output ms).isGenerated id = true ↔
      id = output ∨ s.isGenerated id = true := by
  by_cases hid : id = output
  · subst hid
    simp [isGenerated, mappings, document?_output]
  · simp [isGenerated, mappings, s.document?_of_ne output tree ms hid, hid]

end MemoryStore

end Lineage
