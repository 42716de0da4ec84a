import Lineage.Proofs.Run.Events

/-! Runs leave alone what was there before. A run registers only containers that it makes itself, and
writes to no others. So the heap of a run only grows, whatever it is asked for and whether its hooks fail
or not, as long as they write past it only through proxies that it has handed out. -/

namespace Lineage

namespace RunState

/-- The run works on containers from `n` on. -/
structure From (n : Nat) (s : RunState) : Prop where
  le_size : n ≤ s.workspace.heap.size
  registered : ∀ id q, s.run.registry.get? id = some q → n ≤ id

/-- The containers before `n` are the same. -/
def AgreeBelow (n : Nat) (s s' : RunState) : Prop :=
  ∀ id < n, s'.workspace.heap.get? id = s.workspace.heap.get? id

/-- Containers are built, and no other one changes. The registry stays as it is. -/
structure Builds (s s' : RunState) : Prop where
  grows : s.workspace.heap.Grows s'.workspace.heap
  registry_eq : s'.run.registry = s.run.registry

variable {n : Nat} {s s' s'' : RunState} {p : Proxy}

theorem AgreeBelow.trans (h₁ : AgreeBelow n s s') (h₂ : AgreeBelow n s' s'') :
    AgreeBelow n s s'' :=
  fun id hid => (h₂ id hid).trans (h₁ id hid)

theorem agreeBelow_withHeap {heap : Heap} (hn : n ≤ s.workspace.heap.size)
    (hg : s.workspace.heap.Grows heap) : AgreeBelow n s (s.withHeap heap) :=
  fun id hid => hg.2 id (Nat.lt_of_lt_of_le hid hn)

theorem agreeBelow_written {key : Segment} {write : TaggedWrite} {origin : Pointer} {c : Container}
    (hp : n ≤ p.backing) : AgreeBelow n s (s.written p key write origin c) := by
  intro id hid
  have hne : p.backing ≠ id := by
    rintro rfl
    omega
  exact (Heap.get?_set _ _ _ _).trans (if_neg fun h => hne h.1)

/-- An operation through a proxy over a container from `n` on stays there. -/
theorem From.effect (hs : s.From n) {isDirect : Bool} (hp : isDirect = true → n ≤ p.backing)
    (heff : Effect s p isDirect s') : s'.From n ∧ AgreeBelow n s s' := by
  have hle := hs.le_size
  cases heff with
  | grown hg _ =>
    have hsize := hg.1
    exact ⟨⟨by rw [heap_withHeap]; omega, hs.registered⟩, agreeBelow_withHeap hle hg⟩
  | written hg _ hacc hreg =>
    have hsize := hg.1
    have hbacking : n ≤ p.backing := hreg.elim hp fun ⟨q, hq⟩ => hs.registered _ q hq
    refine ⟨⟨?_, hs.registered⟩, ?_⟩
    · rw [size_written, heap_withHeap]
      omega
    · exact (agreeBelow_withHeap hle hg).trans (agreeBelow_written hbacking)
  | allocated c _ _ _ _ hreg =>
    have hg := Heap.grows_alloc s.workspace.heap c
    refine ⟨⟨?_, fun id q hq => ?_⟩, ?_⟩
    · rw [size_registered, size_written, Run.size_allocated]
      omega
    · have hget := (OrderedMap.get?_insert s.run.registry _ _ _).symm.trans hq
      split at hget
      · subst id
        exact hle
      · exact hs.registered id q hget
    · exact (agreeBelow_withHeap hle hg).trans (agreeBelow_written (hs.registered _ _ hreg))

end RunState

namespace Progress

open RunState

variable {n : Nat} {s s' : RunState} {p p' : Progress}

/-- The run works on containers from `n` on, and so do the proxies that it has handed out. -/
structure From (n : Nat) (p : Progress) : Prop where
  state : p.state.From n
  issued : ∀ q ∈ p.issued, n ≤ q.backing

/-- Past the run, only proxies that it has handed out are written through. Its operations may be tried
on any proxy. -/
def Confines (p : Progress) (a : Action) : Prop := a.isDirect = true → a.target ∈ p.issued

instance (p : Progress) (a : Action) : Decidable (p.Confines a) :=
  inferInstanceAs (Decidable (a.isDirect = true → a.target ∈ p.issued))

theorem Admits.confines {a : Action} (ha : p.Admits a) : p.Confines a := by
  intro hd
  rcases ha with hi | ⟨hnot, _⟩
  · exact hi
  · rw [hd] at hnot
    cases hnot

theorem From.perform (hp : p.From n) {a : Action} (ha : p.Confines a) :
    (p.perform a).From n ∧ AgreeBelow n p.state (p.perform a).state := by
  obtain ⟨hs, hagree⟩ := hp.state.effect (fun hd => hp.issued _ (ha hd)) (p.effect_perform a)
  refine ⟨⟨hs, fun q hq => ?_⟩, hagree⟩
  rcases mem_issued_perform hq with hq | ⟨_, id, _, r, rfl, _, hr, _⟩
  · exact hp.issued q hq
  · exact hs.registered id r hr

/-- What is built beside the run belongs to nobody. -/
theorem From.builds {issued : List Proxy} (hp : Progress.From n ⟨s, issued⟩) (hb : s.Builds s') :
    Progress.From n ⟨s', issued⟩ ∧ AgreeBelow n s s' := by
  have hle := hp.state.le_size
  refine ⟨⟨⟨Nat.le_trans hle hb.grows.1, ?_⟩, hp.issued⟩, fun id hid => ?_⟩
  · rw [hb.registry_eq]
    exact hp.state.registered
  · exact hb.grows.2 id (Nat.lt_of_lt_of_le hid hle)

theorem From.events (hp : p.From n) (hevents : Run.Events Confines Builds p p') :
    p'.From n ∧ AgreeBelow n p.state p'.state := by
  refine hevents.keeps (I := fun q => q.From n ∧ AgreeBelow n p.state q.state) ?_ ?_
    ⟨hp, fun _ _ => rfl⟩
  · rintro q a ⟨hq, hagree⟩ ha
    obtain ⟨hq', hagree'⟩ := hq.perform ha
    exact ⟨hq', hagree.trans hagree'⟩
  · rintro s s' issued ⟨hq, hagree⟩ hb
    obtain ⟨hq', hagree'⟩ := hq.builds hb
    exact ⟨hq', hagree.trans hagree'⟩

end Progress

/-- A step is such an event. -/
theorem Run.Step.event {p p' : Progress} (hstep : Run.Step p p') :
    Run.Event Progress.Confines RunState.Builds p p' := by
  cases hstep with
  | act a ha => exact .act a ha.confines
  | grow heap hg _ => exact .beside ⟨hg, rfl⟩
  | aside w hh _ => exact .beside ⟨by simp only [hh]; exact .refl _, rfl⟩
  | turn current => exact .beside ⟨.refl _, rfl⟩

namespace Run

variable (id : RunId) (inputs : List (SourceId × Tree)) (w : Workspace)

theorem grows_start : w.heap.Grows (start id inputs w).workspace.heap :=
  Heap.grows_alloc w.heap .emptyObject

theorem from_start :
    Progress.From w.heap.size ⟨start id inputs w, [(start id inputs w).run.root]⟩ := by
  refine ⟨⟨(grows_start id inputs w).1, fun i q hq => ?_⟩, fun q hq => ?_⟩
  · have hget : (if w.heap.size = i then some Pointer.root else none) = some q :=
      (OrderedMap.get?_insert _ _ _ _).symm.trans hq
    split at hget
    · exact Nat.le_of_eq ‹_›
    · cases hget
  · rw [List.mem_singleton.mp hq]
    exact Nat.le_refl _

theorem grows_of_from {p : Progress}
    (hp : p.From w.heap.size ∧ RunState.AgreeBelow w.heap.size (start id inputs w) p.state) :
    w.heap.Grows p.state.workspace.heap :=
  ⟨hp.1.state.le_size, fun i hi => (hp.2 i hi).trans ((grows_start id inputs w).2 i hi)⟩

/-- The events of a run change none of the containers that were there before. -/
theorem grows_of_events {p : Progress}
    (hevents : Events Progress.Confines RunState.Builds (.initial id inputs w) p) :
    w.heap.Grows p.state.workspace.heap :=
  grows_of_from id inputs w ((from_start id inputs w).events hevents)

theorem grows_of_steps {p : Progress}
    (hsteps : Steps ⟨start id inputs w, [(start id inputs w).run.root]⟩ p) :
    w.heap.Grows p.state.workspace.heap :=
  grows_of_events id inputs w (Relation.ReflTransGen.mono (fun _ _ hstep => hstep.event) _ _ hsteps)

end Run

namespace Job

variable {σ τ : Type} {t : Transform σ τ} {id : RunId} {inputs : List (SourceId × Tree)} {own : τ}
  {ambient : σ} {w : Workspace}

/-- Until its hooks end, a new job is confined in what it does. -/
def Confined (t : Transform σ τ) (id : RunId) (inputs : List (SourceId × Tree)) (own : τ)
    (ambient : σ) (w : Workspace) : Prop :=
  ∃ issued, Run.Events Progress.Confines RunState.Builds (.initial id inputs w)
    ⟨(after (hooks t (launch id inputs own ambient w).hookState)).runState, issued⟩

/-- The hooks of a confined job change none of the containers that were there before. -/
theorem Confined.grows (hc : Confined t id inputs own ambient w) :
    w.heap.Grows (after (hooks t (launch id inputs own ambient w).hookState)).workspace.heap := by
  obtain ⟨issued, hevents⟩ := hc
  exact Run.grows_of_events id inputs w hevents

/-- Each of the inputs is visited. -/
def visited (w : Workspace) (inputs : List (SourceId × Tree)) : Workspace :=
  inputs.foldl (fun w e => (w.visit e.2).2) w

theorem heap_visited (w : Workspace) (inputs : List (SourceId × Tree)) :
    (visited w inputs).heap = w.heap := by
  induction inputs generalizing w with
  | nil => rfl
  | cons e rest ih => exact ih (w.visit e.2).2

/-- A transform that acts only at the end visits the inputs. -/
theorem processInputs_concluding (actions : List Action) (inputs : List (SourceId × Tree))
    (h : HookState σ τ) :
    ∃ current, processInputs (.concluding actions) inputs h =
      .ok () { h with
        workspace := visited h.workspace inputs
        run := { h.run with current } } := by
  induction inputs generalizing h with
  | nil => exact ⟨h.run.current, rfl⟩
  | cons e rest ih => exact ih (turned h e.1 e.2)

/-- Where a run is when all its inputs have been visited, and nothing else has been done. -/
def readied (id : RunId) (inputs : List (SourceId × Tree)) (w : Workspace) : Progress :=
  let s := Run.start id inputs w
  ⟨{ s with workspace := visited s.workspace s.run.inputs.entries }, [s.run.root]⟩

/-- A job that carries out its actions at the end is confined if they are. -/
theorem confined_concluding {actions : List Action}
    (hadmits : Run.AdmitsAll Progress.Confines (readied id inputs w) actions) :
    Confined (.concluding actions : Transform σ τ) id inputs own ambient w := by
  let launched : HookState σ τ := (launch id inputs own ambient w).hookState
  let ready : HookState σ τ :=
    { launched with workspace := visited launched.workspace launched.run.inputs.entries }
  have hhooks : hooks (.concluding actions) launched = actions.forM Hook.carryOut ready := by
    obtain ⟨current, hprocess⟩ :=
      processInputs_concluding actions launched.run.inputs.entries launched
    change (processInputs (.concluding actions) launched.run.inputs.entries >>= _) launched = _
    rw [bind_of_ok hprocess]
    rfl
  have hstate := Hook.runState_carryOut actions ready (readied id inputs w) rfl
  have hready : (Run.start id inputs w).Builds (readied id inputs w).state := by
    refine ⟨?_, rfl⟩
    rw [readied, heap_visited]
    exact .refl _
  rw [← hhooks] at hstate
  refine ⟨(actions.foldl Progress.perform (readied id inputs w)).issued, .head (.beside hready) ?_⟩
  rw [hstate]
  exact hadmits.events

end Job

end Lineage
