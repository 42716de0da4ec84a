import Lineage.Proofs.Run.Events
import Lineage.Proofs.Run.Registry

/-! Reopening. A run that is asked for a container at a place makes one where nothing stands, and gives the
container again that it has handed out for this very place. It gives no other: not a value, not a container
of the other kind, not one that belongs elsewhere and was written to the place as well. The registry has
exactly the containers that were handed out, each for its place, and no container changes its kind, so that
the answer for a place, once given, stays the same. -/

namespace Lineage

namespace Heap

/-- Every container stays, and stays an object or an array. -/
def KeepsKinds (h h' : Heap) : Prop :=
  ∀ id c, h.get? id = some c → ∃ c', h'.get? id = some c' ∧ c'.isArray = c.isArray

variable {h h' h'' : Heap} {id : ContainerId}

theorem KeepsKinds.trans (h₁ : h.KeepsKinds h') (h₂ : h'.KeepsKinds h'') : h.KeepsKinds h'' := by
  intro i c hc
  obtain ⟨c', hc', hkind'⟩ := h₁ i c hc
  obtain ⟨c'', hc'', hkind''⟩ := h₂ i c' hc'
  exact ⟨c'', hc'', hkind''.trans hkind'⟩

theorem KeepsKinds.isArray_container (hk : h.KeepsKinds h') (hid : id < h.size) :
    h'.isArray (.container id) = h.isArray (.container id) := by
  have hc : h.get? id = some h.cells[id] := Array.getElem?_eq_getElem hid
  obtain ⟨c', hc', hkind⟩ := hk id _ hc
  rw [Heap.isArray_container hc', Heap.isArray_container hc, hkind]

theorem Grows.keepsKinds (hg : h.Grows h') : h.KeepsKinds h' :=
  fun _ c hc => ⟨c, hg.get? hc, rfl⟩

theorem keepsKinds_set {c c' : Container} {key : Segment} {v : Tree} (hc : h.get? id = some c)
    (hadd : c.add? key v = some c') : h.KeepsKinds (h.set id c') := by
  intro i d hd
  rw [get?_set]
  by_cases hi : id = i
  · subst hi
    cases hc.symm.trans hd
    exact ⟨c', if_pos ⟨rfl, lt_size_of_get? hc⟩, Container.isArray_of_add? hadd⟩
  · exact ⟨d, by rw [if_neg fun hh => hi hh.1, hd], rfl⟩

end Heap

namespace RunState

variable {s s' : RunState} {p : Proxy}

theorem keepsKinds_of_effect {isDirect : Bool} (heff : Effect s p isDirect s') :
    s.workspace.heap.KeepsKinds s'.workspace.heap := by
  cases heff with
  | grown hg _ => exact hg.keepsKinds
  | written hg _ hacc _ =>
    exact hg.keepsKinds.trans (Heap.keepsKinds_set hacc.backing hacc.add)
  | allocated c _ _ _ hacc _ =>
    exact (Heap.grows_alloc s.workspace.heap c).keepsKinds.trans
      (Heap.keepsKinds_set hacc.backing hacc.add)

end RunState

namespace Run

variable {s s' : RunState} {c : Container} {parent q : Proxy} {key : Segment} {origin : Pointer}

theorem registry_write (p : Proxy) (key : Segment) (w : TaggedWrite) :
    (after (write p key w s)).run.registry = s.run.registry := by
  rcases write_cases s p key w with ⟨e, he⟩ | ⟨_, _, _, _, _, _, hok⟩
  · rw [he]
    rfl
  · rw [hok]
    rfl

theorem registry_put (p : Proxy) (key : Segment) (a : Assignment) :
    (after (liftWrite (p.put key a) s)).run.registry = s.run.registry := by
  rcases liftWrite_put_cases s p key a with ⟨e, he⟩ | ⟨_, _, _, _, _, _, hok⟩
  · rw [he]
    rfl
  · rw [hok]
    rfl

/-- A container that is made is of the kind that was asked for. -/
theorem kind_of_allocate (h : allocate c parent key origin s = .ok q s') :
    ∃ d, s'.workspace.heap.get? q.backing = some d ∧ d.isArray = c.isArray := by
  rcases allocate_cases s c parent key origin with
    ⟨e, he⟩ | ⟨e, he⟩ | ⟨_, _, _, _, _, _, _, _, hacc, hok⟩
  · cases he.symm.trans h
  · cases he.symm.trans h
  · cases hok.symm.trans h
    have hnew : (allocated s c).workspace.heap.get? s.workspace.heap.size = some c :=
      (Heap.get?_alloc _ _ _).trans (if_pos rfl)
    exact Heap.keepsKinds_set hacc.backing hacc.add _ c hnew

theorem kind_of_reopenOrAllocate (h : reopenOrAllocate c parent key origin s = .ok q s') :
    ∃ d, s'.workspace.heap.get? q.backing = some d ∧ d.isArray = c.isArray := by
  cases hm : s.workspace.heap.member? parent.tree key with
  | none => exact kind_of_allocate (reopenOrAllocate_of_vacant s hm origin ▸ h)
  | some existing =>
    rcases reopenOrAllocate_cases s c parent key origin with
      heq | ⟨e, he⟩ | ⟨r, _, _, hr, _, _, _⟩
    · exact kind_of_allocate (heq ▸ h)
    · cases he.symm.trans h
    · rw [reopenOrAllocate_of_member s hm hr] at h
      split at h
      · rename_i id hid
        cases h
        exact ((reopenable?_eq_some_iff s).mp hid).2.1
      · cases h

/-- The proxy that is answered stands at the key that was asked for. -/
theorem location_of_allocate (h : allocate c parent key origin s = .ok q s') :
    q.location = parent.location.append key := by
  rcases allocate_cases s c parent key origin with
    ⟨e, he⟩ | ⟨e, he⟩ | ⟨_, _, _, _, _, _, _, _, _, hok⟩
  · cases he.symm.trans h
  · cases he.symm.trans h
  · cases hok.symm.trans h
    rfl

theorem location_of_reopenOrAllocate (h : reopenOrAllocate c parent key origin s = .ok q s') :
    q.location = parent.location.append key := by
  rcases reopenOrAllocate_cases s c parent key origin with
    heq | ⟨e, he⟩ | ⟨_, _, _, _, _, _, hok⟩
  · exact location_of_allocate (heq ▸ h)
  · cases he.symm.trans h
  · cases hok.symm.trans h
    rfl

end Run

namespace Progress

open RunState

/-- The run has handed out a proxy over the container for the place. -/
def HandedOut (p : Progress) (id : ContainerId) (place : Pointer) : Prop :=
  ∃ q ∈ p.issued, q.backing = id ∧ (q.location == place) = true

/-- Whatever the run has registered it has handed out. -/
def Tracked (p : Progress) : Prop :=
  ∀ id path, p.state.AllocatedAt id path → ∃ q ∈ p.issued, q.backing = id ∧ q.location.tokens = path

variable {p p' : Progress} {s : RunState} {issued : List Proxy} {parent : Proxy}

theorem Tracked.mono (ht : p.Tracked) (hreg : p'.state.run.registry = p.state.run.registry)
    (hissued : p.issued ⊆ p'.issued) : p'.Tracked := by
  intro id path hid
  obtain ⟨q, hq, hplace⟩ := ht id path ((allocatedAt_congr hreg id path).mp hid)
  exact ⟨q, hissued hq, hplace⟩

/-- What is registered in an allocation is handed out. -/
theorem Tracked.allocate (ht : p.Tracked) (hg : p.state.Genuine parent) (c : Container)
    (key : Segment) (origin : Pointer) :
    (p.issue (Run.allocate c parent key origin p.state)).Tracked := by
  rcases Run.allocate_cases p.state c parent key origin with
    ⟨e, he⟩ | ⟨e, he⟩ | ⟨r, _, _, _, _, hr, _, _, _, hok⟩
  · rw [he]
    exact ht
  · rw [he]
    exact ht.mono rfl (List.Subset.refl _)
  · rw [hok]
    intro id path hid
    rw [issue, allocatedAt_registered] at hid
    split at hid
    · refine ⟨_, List.mem_cons_self, Eq.symm ‹_›, ?_⟩
      rw [Proxy.tokens_location_child, (hg r hr).1, ← hid, Pointer.tokens_append]
    · obtain ⟨q, hq, hplace⟩ := ht id path hid
      exact ⟨q, List.mem_cons_of_mem _ hq, hplace⟩

theorem Tracked.reopenOrAllocate (ht : p.Tracked) (hg : p.state.Genuine parent) (c : Container)
    (key : Segment) (origin : Pointer) :
    (p.issue (Run.reopenOrAllocate c parent key origin p.state)).Tracked := by
  rcases Run.reopenOrAllocate_cases p.state c parent key origin with
    heq | ⟨e, he⟩ | ⟨_, _, _, _, _, _, hok⟩
  · rw [heq]
    exact ht.allocate hg c key origin
  · rw [he]
    exact ht
  · rw [hok]
    exact ht.mono rfl (List.subset_cons_self _ _)

theorem Tracked.perform (ht : p.Tracked) {a : Action} (hg : p.state.Genuine a.target) :
    (p.perform a).Tracked := by
  cases a with
  | write t key w => exact ht.mono (Run.registry_write t key w) (List.Subset.refl _)
  | place t key origin v recurse => exact ht.mono (Run.registry_write t key _) (List.Subset.refl _)
  | placeCopy t key origin v recurse =>
    exact ht.mono (Run.registry_write (s := Run.duplicated p.state v) t key _) (List.Subset.refl _)
  | allocateObject t key origin | allocateArray t key origin => exact ht.allocate hg _ key origin
  | openObject t key origin | openArray t key origin => exact ht.reopenOrAllocate hg _ key origin
  | put t key a => exact ht.mono (Run.registry_put t key a) (List.Subset.refl _)
  | push t a => exact ht.mono (Run.registry_put t _ a) (List.Subset.refl _)

/-- The run is sound, and what it has registered is what it has handed out. -/
structure Settled (p : Progress) : Prop where
  sound : p.Sound
  tracked : p.Tracked

theorem Settled.step (hp : p.Settled) (hstep : Run.Step p p') : p'.Settled := by
  refine ⟨hp.sound.step hstep, ?_⟩
  cases hstep with
  | act a ha => exact hp.tracked.perform (hp.sound.genuine ha)
  | grow | aside | turn => exact hp.tracked.mono rfl (List.Subset.refl _)

theorem Settled.steps (hp : p.Settled) (hsteps : Run.Steps p p') : p'.Settled := by
  induction hsteps with
  | refl => exact hp
  | tail _ hstep ih => exact ih.step hstep

theorem settled_initial (id : RunId) (inputs : List (SourceId × Tree)) {w : Workspace}
    (hw : w.heap.Indexable) : (initial id inputs w).Settled := by
  refine ⟨Run.sound_start id inputs w hw, fun i path hi => ?_⟩
  obtain ⟨rfl, rfl⟩ := (Run.allocatedAt_start id inputs w i path).mp hi
  exact ⟨_, List.mem_cons_self, rfl, rfl⟩

/-- The registry has the containers that were handed out, each for its place. -/
theorem Settled.handedOut_iff (hp : p.Settled) {id : ContainerId} {place : Pointer} :
    p.HandedOut id place ↔ p.state.AllocatedAt id place.tokens := by
  constructor
  · rintro ⟨q, hq, rfl, hplace⟩
    exact Pointer.beq_iff.mp hplace ▸ (hp.sound.owns q hq).1
  · intro hid
    obtain ⟨q, hq, hbacking, htokens⟩ := hp.tracked id _ hid
    exact ⟨q, hq, hbacking, Pointer.beq_iff.mpr htokens⟩

end Progress

namespace Run

variable {p p' : Progress}

theorem Step.keepsKinds (h : Step p p') :
    p.state.workspace.heap.KeepsKinds p'.state.workspace.heap := by
  cases h with
  | act a ha => exact RunState.keepsKinds_of_effect (p.effect_perform a)
  | grow heap hg _ => exact hg.keepsKinds
  | aside w hh _ =>
    simp only [hh]
    exact (Heap.Grows.refl _).keepsKinds
  | turn => exact (Heap.Grows.refl _).keepsKinds

theorem Steps.keepsKinds (h : Steps p p') :
    p.state.workspace.heap.KeepsKinds p'.state.workspace.heap := by
  induction h with
  | refl => exact (Heap.Grows.refl _).keepsKinds
  | tail _ hstep ih => exact ih.trans hstep.keepsKinds

theorem Steps.issued_subset (h : Steps p p') : p.issued ⊆ p'.issued := by
  induction h with
  | refl => exact List.Subset.refl _
  | tail _ hstep ih => exact List.Subset.trans ih hstep.issued_subset

end Run

namespace Progress

/-- How a run answers when it is asked for a container of a kind, where `make` allocates one. -/
structure Reopens (p : Progress) (isArray : Bool)
    (ask make : Proxy → Segment → Pointer → RunM Proxy) : Prop where
  vacant : ∀ parent ∈ p.issued, ∀ key origin,
    p.state.workspace.heap.member? parent.tree key = none →
      ask parent key origin p.state = make parent key origin p.state
  own : ∀ parent ∈ p.issued, ∀ key origin id,
    p.state.workspace.heap.member? parent.tree key = some (.container id) →
    p.state.workspace.heap.isArray (.container id) = isArray →
    p.HandedOut id (parent.location.append key) →
      ask parent key origin p.state = .ok (parent.child key id) p.state
  other : ∀ parent ∈ p.issued, ∀ key origin existing,
    p.state.workspace.heap.member? parent.tree key = some existing →
    (∀ id, existing = .container id → p.state.workspace.heap.isArray existing = isArray →
      ¬p.HandedOut id (parent.location.append key)) →
      ∃ place, (place == parent.location.append key) = true ∧
        ask parent key origin p.state = .error (.write (.duplicateWrite place)) p.state
  /-- One container has one place, wherever else it was written. -/
  elsewhere : ∀ parent ∈ p.issued, ∀ key origin, ∀ q ∈ p.issued,
    p.state.workspace.heap.member? parent.tree key = some q.tree →
    (q.location == parent.location.append key) = false →
      ∃ place, (place == parent.location.append key) = true ∧
        ask parent key origin p.state = .error (.write (.duplicateWrite place)) p.state
  again : ∀ parent ∈ p.issued, ∀ key origin q s,
    (ask parent key origin p.state = .ok q s ∨ make parent key origin p.state = .ok q s) →
    ∀ p', Run.Steps ⟨s, q :: p.issued⟩ p' → ∀ parent' ∈ p'.issued, ∀ key' origin',
      (parent'.location.append key' == parent.location.append key) = true →
        ask parent' key' origin' p'.state = .ok (parent'.child key' q.backing) p'.state

section Answers

variable {p p' : Progress} {parent q : Proxy} {key : Segment} {isArray : Bool} {existing : Tree}

theorem Settled.exists_outputPointer (hp : p.Settled) (hparent : parent ∈ p.issued) (key : Segment) :
    ∃ r, p.state.run.registry.get? parent.backing = some r ∧
      (r.append key).tokens = (parent.location.append key).tokens := by
  obtain ⟨⟨r, hr, htokens⟩, _⟩ := hp.sound.owns parent hparent
  exact ⟨r, hr, by rw [Pointer.tokens_append, Pointer.tokens_append, htokens]⟩

/-- What stands there is opened if it is of the kind and was handed out for the place. -/
theorem Settled.reopen_own (hp : p.Settled) (hparent : parent ∈ p.issued) (origin : Pointer)
    {id : ContainerId}
    (hm : p.state.workspace.heap.member? parent.tree key = some (.container id))
    (hkind : p.state.workspace.heap.isArray (.container id) = isArray)
    (hmade : p.HandedOut id (parent.location.append key)) :
    Run.reopenOrAllocate (.emptyOf isArray) parent key origin p.state =
      .ok (parent.child key id) p.state := by
  obtain ⟨r, hr, hplace⟩ := hp.exists_outputPointer hparent key
  have hat := hp.handedOut_iff.mp hmade
  obtain ⟨c, hc⟩ : ∃ c, p.state.workspace.heap.get? id = some c :=
    ⟨_, Array.getElem?_eq_getElem (hp.sound.state.placed.lt_size _ _ hat)⟩
  rw [Heap.isArray_container hc] at hkind
  have hopen : Run.reopenable? p.state (Container.emptyOf isArray).isArray (r.append key)
      (.container id) = some id := by
    rw [Container.isArray_emptyOf]
    exact (Run.reopenable?_eq_some_iff p.state).mpr ⟨rfl, ⟨c, hc, hkind⟩, hplace ▸ hat⟩
  rw [Run.reopenOrAllocate_of_member p.state hm hr, hopen]

/-- Anything else stays closed. -/
theorem Settled.reopen_other (hp : p.Settled) (hparent : parent ∈ p.issued) (origin : Pointer)
    (hm : p.state.workspace.heap.member? parent.tree key = some existing)
    (hother : ∀ id, existing = .container id → p.state.workspace.heap.isArray existing = isArray →
      ¬p.HandedOut id (parent.location.append key)) :
    ∃ place, (place == parent.location.append key) = true ∧
      Run.reopenOrAllocate (.emptyOf isArray) parent key origin p.state =
        .error (.write (.duplicateWrite place)) p.state := by
  obtain ⟨r, hr, hplace⟩ := hp.exists_outputPointer hparent key
  refine ⟨r.append key, Pointer.beq_iff.mpr hplace, ?_⟩
  have hclosed : Run.reopenable? p.state (Container.emptyOf isArray).isArray (r.append key)
      existing = none := by
    rw [Container.isArray_emptyOf, Option.eq_none_iff_forall_ne_some]
    intro id hid
    obtain ⟨rfl, ⟨c, hc, hkind⟩, hat⟩ := (Run.reopenable?_eq_some_iff p.state).mp hid
    refine hother id rfl ((Heap.isArray_container hc).trans hkind) ?_
    exact hp.handedOut_iff.mpr (hplace ▸ hat)
  rw [Run.reopenOrAllocate_of_member p.state hm hr, hclosed]

/-- A place is not the output root, and what was handed out for it stands there. -/
theorem Settled.member?_of_issued (hp : p.Settled) (hparent : parent ∈ p.issued)
    (hq : q ∈ p.issued) (hplace : (parent.location.append key == q.location) = true) :
    p.state.workspace.heap.member? parent.tree key = some q.tree := by
  have hat := (hp.sound.owns q hq).1
  rw [← Pointer.beq_iff.mp hplace, Pointer.tokens_append] at hat
  obtain ⟨j, hj, hm⟩ := hp.sound.state.placed.parent _ _ _ hat
  have hsame := hp.sound.state.placed.unique j _ _ hj (hp.sound.owns parent hparent).1
  rw [hsame, RunState.memberAt_token] at hm
  exact hm

/-- What was handed out for a place is what is opened there, however the run goes on. -/
theorem Settled.reopen_issued (hp : p.Settled) (hq : q ∈ p.issued)
    (hkind : p.state.workspace.heap.isArray q.tree = isArray) (hsteps : Run.Steps p p')
    (hparent : parent ∈ p'.issued) (origin : Pointer)
    (hplace : (parent.location.append key == q.location) = true) :
    Run.reopenOrAllocate (.emptyOf isArray) parent key origin p'.state =
      .ok (parent.child key q.backing) p'.state := by
  have hp' := hp.steps hsteps
  have hq' := hsteps.issued_subset hq
  have hlt := hp.sound.state.placed.lt_size _ _ (hp.sound.owns q hq).1
  refine hp'.reopen_own hparent origin (hp'.member?_of_issued hparent hq' hplace) ?_
    ⟨q, hq', rfl, Pointer.beq_iff.mpr (Pointer.beq_iff.mp hplace).symm⟩
  exact (hsteps.keepsKinds.isArray_container hlt).trans hkind

theorem Settled.allocate (hp : p.Settled) (hparent : parent ∈ p.issued) (isArray : Bool)
    (key : Segment) (origin : Pointer) :
    (p.issue (Run.allocate (.emptyOf isArray) parent key origin p.state)).Settled := by
  cases isArray with
  | false => exact hp.step (.act (.allocateObject parent key origin) (.inl hparent))
  | true => exact hp.step (.act (.allocateArray parent key origin) (.inl hparent))

theorem Settled.reopenOrAllocate (hp : p.Settled) (hparent : parent ∈ p.issued) (isArray : Bool)
    (key : Segment) (origin : Pointer) :
    (p.issue (Run.reopenOrAllocate (.emptyOf isArray) parent key origin p.state)).Settled := by
  cases isArray with
  | false => exact hp.step (.act (.openObject parent key origin) (.inl hparent))
  | true => exact hp.step (.act (.openArray parent key origin) (.inl hparent))

theorem Settled.reopens (hp : p.Settled) (isArray : Bool) :
    p.Reopens isArray (Run.reopenOrAllocate (.emptyOf isArray)) (Run.allocate (.emptyOf isArray)) where
  vacant parent _ key origin hm := Run.reopenOrAllocate_of_vacant p.state hm origin
  own parent hparent key origin id hm hkind hmade := hp.reopen_own hparent origin hm hkind hmade
  other parent hparent key origin existing hm hother := hp.reopen_other hparent origin hm hother
  elsewhere parent hparent key origin q hq hm hne := by
    refine hp.reopen_other hparent origin hm fun id hid _ hmade => ?_
    cases hid
    -- the registry would have two places for one container
    have hsame := (hp.sound.owns q hq).1.path_eq (hp.handedOut_iff.mp hmade)
    exact Bool.false_ne_true (hne.symm.trans (Pointer.beq_iff.mpr hsame))
  again parent hparent key origin q s hq p' hsteps parent' hparent' key' origin' hplace := by
    have hissued : Settled ⟨s, q :: p.issued⟩ := by
      rcases hq with hq | hq
      · have hopened := hp.reopenOrAllocate hparent isArray key origin
        rwa [hq] at hopened
      · have hmade := hp.allocate hparent isArray key origin
        rwa [hq] at hmade
    have hlocation : q.location = parent.location.append key :=
      hq.elim Run.location_of_reopenOrAllocate Run.location_of_allocate
    obtain ⟨d, hd, hkind⟩ := hq.elim Run.kind_of_reopenOrAllocate Run.kind_of_allocate
    refine hissued.reopen_issued List.mem_cons_self ?_ hsteps hparent' origin' (hlocation ▸ hplace)
    exact (Heap.isArray_container hd).trans (hkind.trans (Container.isArray_emptyOf isArray))

end Answers

end Progress

namespace Run

/-- In every state that a run can come to, objects and arrays are made where nothing stands, opened again
where they were made, and refused otherwise. What was once given for a place is given there ever after. -/
theorem reopens_of_steps (id : RunId) (inputs : List (SourceId × Tree)) {w : Workspace}
    (hw : w.heap.Indexable) {p : Progress} (hsteps : Steps (.initial id inputs w) p) :
    p.Reopens false openObject allocateObject ∧ p.Reopens true openArray allocateArray :=
  have hp := (Progress.settled_initial id inputs hw).steps hsteps
  ⟨hp.reopens false, hp.reopens true⟩

/-- Makes an object, writes it to another place as well and the output root below it, and asks for objects
at both of these places. Neither is given. The object is given where it was made, but not as an array. -/
def crowd : List Action :=
  let root := (start default [] {}).run.root
  let child := root.child (.key "a") 1
  [.openObject root (.key "a") .root, .place root (.key "x") .root child.tree false,
    .place child (.key "up") .root root.tree false, .openObject root (.key "x") .root,
    .openObject child (.key "up") .root, .openArray root (.key "a") .root,
    .openObject root (.key "a") .root]

theorem reopens_crowd :
    (crowd.foldl Progress.perform (.initial default [] {})).issued.map
      (fun q => (q.backing, q.location)) = [(1, ⟨[.key "a"]⟩), (1, ⟨[.key "a"]⟩), (0, .root)] ∧
    (crowd.foldl Progress.perform (.initial default [] {})).Reopens false openObject allocateObject ∧
    (crowd.foldl Progress.perform (.initial default [] {})).Reopens true openArray allocateArray := by
  have hindexable : Heap.Indexable {} := fun _ _ hc => by cases hc
  refine ⟨by decide +kernel, reopens_of_steps default [] (w := {}) hindexable ?_⟩
  simp only [crowd, List.foldl_cons, List.foldl_nil]
  refine .tail (.tail (.tail (.tail (.tail (.tail (.single (.act _ (.inl ?_))) (.act _ (.inl ?_)))
    (.act _ (.inl ?_))) (.act _ (.inl ?_))) (.act _ (.inl ?_))) (.act _ (.inl ?_)))
    (.act _ (.inl ?_)) <;> decide +kernel

end Run

end Lineage
