import Lineage.Proofs.Run.Jobs
import Lineage.Proofs.Run.Operations
import Mathlib.Logic.Relation

/-! Runs as sequences of steps. Through the proxies that its run has handed out, a hook may ask for
anything and write directly, in any order and however often it is refused. It may also ask through proxies
that it has made up itself, unless these are over a container of the run and name another place or another
table than the run does. Apart from that it leaves containers and the run's mapping table alone, and builds
new values beside them. A transform is disciplined when its hooks do nothing else. -/

namespace Lineage

/-- What changes the output of a run. All but the last two are operations of the run. -/
inductive Action where
  | write (target : Proxy) (key : Segment) (w : TaggedWrite)
  | place (target : Proxy) (key : Segment) (origin : Pointer) (value : Tree) (recurse : Bool)
  | placeCopy (target : Proxy) (key : Segment) (origin : Pointer) (value : Tree) (recurse : Bool)
  | allocateObject (parent : Proxy) (key : Segment) (origin : Pointer)
  | allocateArray (parent : Proxy) (key : Segment) (origin : Pointer)
  | openObject (parent : Proxy) (key : Segment) (origin : Pointer)
  | openArray (parent : Proxy) (key : Segment) (origin : Pointer)
  | put (p : Proxy) (key : Segment) (a : Assignment)
  | push (p : Proxy) (a : Assignment)

namespace Action

/-- The proxy that is written through. -/
def target : Action → Proxy
  | write p _ _ | place p _ _ _ _ | placeCopy p _ _ _ _ => p
  | allocateObject p _ _ | allocateArray p _ _ | openObject p _ _ | openArray p _ _ => p
  | put p _ _ | push p _ => p

/-- Whether the action goes past the run, straight to the proxy. -/
def isDirect : Action → Bool
  | put _ _ _ | push _ _ => true
  | _ => false

end Action

/-- If the proxy is over a container of the run, it says truly where that stands and writes to the
table of the run. The run refuses proxies over any other container. -/
def RunState.Genuine (s : RunState) (p : Proxy) : Prop :=
  ∀ q, s.run.registry.get? p.backing = some q →
    p.location.tokens = q.tokens ∧ p.sink.table = s.run.table

/-- A run with the proxies that it has handed out. -/
structure Progress where
  state : RunState
  issued : List Proxy

namespace Progress

/-- The progress after an operation that answers with a proxy. -/
def issue (p : Progress) : EStateM.Result RunError RunState Proxy → Progress
  | .ok q s => ⟨s, q :: p.issued⟩
  | .error _ s => ⟨s, p.issued⟩

/-- The progress after an action, whether it is refused or not. -/
def perform (p : Progress) : Action → Progress
  | .write t key w => ⟨after (Run.write t key w p.state), p.issued⟩
  | .place t key origin v recurse => ⟨after (Run.place t key origin v recurse p.state), p.issued⟩
  | .placeCopy t key origin v recurse =>
    ⟨after (Run.placeCopy t key origin v recurse p.state), p.issued⟩
  | .allocateObject t key origin => p.issue (Run.allocateObject t key origin p.state)
  | .allocateArray t key origin => p.issue (Run.allocateArray t key origin p.state)
  | .openObject t key origin => p.issue (Run.openObject t key origin p.state)
  | .openArray t key origin => p.issue (Run.openArray t key origin p.state)
  | .put q key a => ⟨after (Run.liftWrite (q.put key a) p.state), p.issued⟩
  | .push q a => ⟨after (Run.liftWrite (q.push a) p.state), p.issued⟩

theorem state_issue (p : Progress) (r : EStateM.Result RunError RunState Proxy) :
    (p.issue r).state = after r := by
  cases r <;> rfl

theorem mem_issued_issue {p : Progress} {r : EStateM.Result RunError RunState Proxy} {q : Proxy}
    (hq : q ∈ (p.issue r).issued) : q ∈ p.issued ∨ ∃ s, r = .ok q s := by
  cases r with
  | error e s => exact .inl hq
  | ok q' s =>
    rcases List.mem_cons.mp hq with rfl | hq
    · exact .inr ⟨s, rfl⟩
    · exact .inl hq

theorem effect_perform (p : Progress) (a : Action) :
    Effect p.state a.target a.isDirect (p.perform a).state := by
  cases a with
  | write t key w => exact Run.effect_write t key w
  | place t key origin v recurse => exact Run.effect_write t key _
  | placeCopy t key origin v recurse => exact Run.effect_placeCopy t key origin v recurse
  | allocateObject t key origin | allocateArray t key origin =>
    rw [perform, state_issue]
    exact Run.effect_allocate rfl t key origin
  | openObject t key origin | openArray t key origin =>
    rw [perform, state_issue]
    exact Run.effect_reopenOrAllocate rfl t key origin
  | put t key a => exact Run.effect_put t key a
  | push t a => exact Run.effect_put t _ a

theorem mem_issued_perform {p : Progress} {a : Action} {q : Proxy}
    (hq : q ∈ (p.perform a).issued) :
    q ∈ p.issued ∨ Answers p.state a.target (p.perform a).state q := by
  cases a with
  | allocateObject t key origin | allocateArray t key origin =>
    rw [perform, state_issue]
    refine (mem_issued_issue hq).imp_right ?_
    rintro ⟨s, hs⟩
    rw [hs]
    exact Run.answers_of_allocate hs
  | openObject t key origin | openArray t key origin =>
    rw [perform, state_issue]
    refine (mem_issued_issue hq).imp_right ?_
    rintro ⟨s, hs⟩
    rw [hs]
    exact Run.answers_of_reopenOrAllocate hs
  | _ => exact .inl hq

theorem issued_subset_perform (p : Progress) (a : Action) :
    p.issued ⊆ (p.perform a).issued := by
  have hissue : ∀ r, p.issued ⊆ (p.issue r).issued := by
    rintro (_ | _)
    · exact List.subset_cons_self _ _
    · exact List.Subset.refl _
  cases a with
  | allocateObject | allocateArray | openObject | openArray => exact hissue _
  | _ => exact List.Subset.refl _

/-- The proxy of an action is one that the run handed out. An operation of the run may be tried on any
other proxy as well, as long as it is no forgery. -/
def Admits (p : Progress) (a : Action) : Prop :=
  a.target ∈ p.issued ∨ a.isDirect = false ∧ p.state.Genuine a.target

end Progress

namespace Run

/-- One step of a run. Besides acting on the output, a hook may build new containers, and it may do
what changes neither a container nor the mappings of the run, such as moving a traversal on. The run
itself turns from input to input. -/
inductive Step : Progress → Progress → Prop
  | act {p : Progress} (a : Action) (ha : p.Admits a) : Step p (p.perform a)
  | grow {s : RunState} {issued : List Proxy} (heap : Heap) (hg : s.workspace.heap.Grows heap)
      (hi : heap.Indexable) : Step ⟨s, issued⟩ ⟨s.withHeap heap, issued⟩
  | aside {s : RunState} {issued : List Proxy} (w : Workspace)
      (hh : w.heap = s.workspace.heap)
      (ht : w.table? s.run.table = s.workspace.table? s.run.table) :
      Step ⟨s, issued⟩ ⟨{ s with workspace := w }, issued⟩
  | turn {s : RunState} {issued : List Proxy} (current : Option SourceId) :
      Step ⟨s, issued⟩ ⟨{ s with run := { s.run with current } }, issued⟩

abbrev Steps : Progress → Progress → Prop := Relation.ReflTransGen Step

theorem Step.root_eq {p p' : Progress} (h : Step p p') :
    p'.state.run.root = p.state.run.root := by
  cases h with
  | act a ha => exact (p.effect_perform a).root_eq
  | grow | aside | turn => rfl

theorem Step.table_eq {p p' : Progress} (h : Step p p') :
    p'.state.run.table = p.state.run.table := by
  cases h with
  | act a ha => exact (p.effect_perform a).table_eq
  | grow | aside | turn => rfl

theorem Step.inputs_eq {p p' : Progress} (h : Step p p') :
    p'.state.run.inputs = p.state.run.inputs := by
  cases h with
  | act a ha => exact (p.effect_perform a).inputs_eq
  | grow | aside | turn => rfl

/-- What a run starts with does not change. -/
theorem Steps.fixed {p p' : Progress} (h : Steps p p') :
    p'.state.run.root = p.state.run.root ∧ p'.state.run.table = p.state.run.table ∧
      p'.state.run.inputs = p.state.run.inputs := by
  induction h with
  | refl => exact ⟨rfl, rfl, rfl⟩
  | tail _ hstep ih =>
    rw [hstep.root_eq, hstep.table_eq, hstep.inputs_eq]
    exact ih

theorem Step.issued_subset {p p' : Progress} (h : Step p p') : p.issued ⊆ p'.issued := by
  cases h with
  | act a ha => exact p.issued_subset_perform a
  | grow | aside | turn => exact List.Subset.refl _

/-- The output root stays handed out. -/
theorem Steps.root_mem {p p' : Progress} (h : Steps p p') (hp : p.state.run.root ∈ p.issued) :
    p'.state.run.root ∈ p'.issued := by
  induction h with
  | refl => exact hp
  | tail _ hstep ih =>
    rw [hstep.root_eq]
    exact hstep.issued_subset ih

end Run

variable {σ τ α β : Type}

namespace Hook

/-- What `m` does to the run from `h`, when the proxies in `issued` have been handed out, is a
sequence of steps of the kind `r`; if it succeeds then `post` holds of what it returns and leaves. -/
def StepsBy (r : Progress → Progress → Prop) (m : Hook σ τ α) (h : HookState σ τ)
    (issued : List Proxy) (post : α → HookState σ τ → List Proxy → Prop) : Prop :=
  ∃ issued', Relation.ReflTransGen r ⟨h.runState, issued⟩ ⟨(after (m h)).runState, issued'⟩ ∧
    ∀ a h', m h = .ok a h' → post a h' issued'

/-- What `m` does to the run from `h`, when the proxies in `issued` have been handed out, is a
sequence of steps; if it succeeds then `post` holds of what it returns and leaves. -/
def StepsTo (m : Hook σ τ α) (h : HookState σ τ) (issued : List Proxy)
    (post : α → HookState σ τ → List Proxy → Prop) : Prop :=
  ∃ issued', Run.Steps ⟨h.runState, issued⟩ ⟨(after (m h)).runState, issued'⟩ ∧
    ∀ a h', m h = .ok a h' → post a h' issued'

variable {r : Progress → Progress → Prop} {m : Hook σ τ α} {f : α → Hook σ τ β} {h : HookState σ τ}
  {issued : List Proxy} {P : α → HookState σ τ → List Proxy → Prop}
  {Q : β → HookState σ τ → List Proxy → Prop}

theorem StepsBy.bind (hm : m.StepsBy r h issued P)
    (hf : ∀ a h' issued', P a h' issued' → (f a).StepsBy r h' issued' Q) :
    Hook.StepsBy r (m >>= f) h issued Q := by
  obtain ⟨issued', hsteps, hpost⟩ := hm
  cases hr : m h with
  | error e h' =>
    refine ⟨issued', ?_, fun b h'' hok => ?_⟩
    · rw [bind_of_error hr]
      simpa only [hr, after] using hsteps
    · rw [bind_of_error hr] at hok
      cases hok
  | ok a h' =>
    obtain ⟨issued'', hsteps', hpost'⟩ := hf a h' issued' (hpost a h' hr)
    refine ⟨issued'', ?_, fun b h'' hok => hpost' b h'' ?_⟩
    · rw [bind_of_ok hr]
      rw [hr] at hsteps
      exact hsteps.trans hsteps'
    · rwa [bind_of_ok hr] at hok

/-- Looking at the state is no step. -/
theorem stepsBy_get {f : HookState σ τ → Hook σ τ β} (hf : (f h).StepsBy r h issued Q) :
    Hook.StepsBy r (get >>= f) h issued Q := hf

theorem stepsBy_pure {a : α} (hp : P a h issued) :
    (pure a : Hook σ τ α).StepsBy r h issued P :=
  ⟨issued, .refl, by rintro _ _ ⟨⟩; exact hp⟩

/-- What is known to hold after the steps may be used for what comes after them. -/
theorem StepsBy.mono {Q : α → HookState σ τ → List Proxy → Prop} (hm : m.StepsBy r h issued P)
    (hpost : ∀ a h' issued', Relation.ReflTransGen r ⟨h.runState, issued⟩ ⟨h'.runState, issued'⟩ →
      P a h' issued' → Q a h' issued') : m.StepsBy r h issued Q := by
  obtain ⟨issued', hsteps, hp⟩ := hm
  refine ⟨issued', hsteps, fun a h' hok => hpost a h' issued' ?_ (hp a h' hok)⟩
  rwa [hok] at hsteps

/-- What takes steps to a state and then does what `m'` does there. -/
theorem StepsBy.head {m' : Hook σ τ α} {h' : HookState σ τ} (hm : m' h' = m h)
    (hsteps : Relation.ReflTransGen r ⟨h'.runState, issued⟩ ⟨h.runState, issued⟩)
    (hrest : m.StepsBy r h issued P) : m'.StepsBy r h' issued P := by
  obtain ⟨issued', hsteps', hpost⟩ := hrest
  refine ⟨issued', ?_, ?_⟩
  · rw [hm]
    exact hsteps.trans hsteps'
  · rw [hm]
    exact hpost

theorem StepsTo.bind (hm : m.StepsTo h issued P)
    (hf : ∀ a h' issued', P a h' issued' → (f a).StepsTo h' issued' Q) :
    Hook.StepsTo (m >>= f) h issued Q := StepsBy.bind hm hf

theorem stepsTo_get {f : HookState σ τ → Hook σ τ β} (hf : (f h).StepsTo h issued Q) :
    Hook.StepsTo (get >>= f) h issued Q := hf

theorem stepsTo_pure {a : α} (hp : P a h issued) : (pure a : Hook σ τ α).StepsTo h issued P :=
  stepsBy_pure hp

theorem StepsTo.mono {Q : α → HookState σ τ → List Proxy → Prop} (hm : m.StepsTo h issued P)
    (hpost : ∀ a h' issued', Run.Steps ⟨h.runState, issued⟩ ⟨h'.runState, issued'⟩ →
      P a h' issued' → Q a h' issued') : m.StepsTo h issued Q := StepsBy.mono hm hpost

theorem StepsTo.root_mem (hm : m.StepsTo h issued P) (hk : h.run.root ∈ issued) :
    m.StepsTo h issued fun _ h' issued' => h'.run.root ∈ issued' :=
  hm.mono fun _ _ _ hsteps _ => hsteps.root_mem hk

/-- A transform may swallow a failure. -/
theorem StepsTo.swallow (hm : m.StepsTo h issued P) (a : α) :
    Hook.StepsTo (tryCatch m fun _ => pure a) h issued fun _ _ _ => True := by
  obtain ⟨issued', hsteps, _⟩ := hm
  refine ⟨issued', ?_, fun _ _ _ => trivial⟩
  rwa [after_swallow]

theorem liftRun_of_ok {m : RunM α} {a : α} {r : RunState} (hm : m h.runState = .ok a r) :
    (liftRun m : Hook σ τ α) h = .ok a { h with workspace := r.workspace, run := r.run } := by
  simp only [HookState.runState] at hm
  simp only [liftRun, hm]

theorem liftRun_of_error {m : RunM α} {e : RunError} {r : RunState}
    (hm : m h.runState = .error e r) :
    (liftRun m : Hook σ τ α) h = .error e { h with workspace := r.workspace, run := r.run } := by
  simp only [HookState.runState] at hm
  simp only [liftRun, hm]

theorem runState_after_liftRun (m : RunM α) (h : HookState σ τ) :
    (after ((liftRun m : Hook σ τ α) h)).runState = after (m h.runState) := by
  cases hr : m h.runState with
  | error e s => rw [liftRun_of_error hr]; rfl
  | ok a s => rw [liftRun_of_ok hr]; rfl

/-- An operation that answers with nothing is one step. -/
theorem stepsTo_act (a : Action) {m : RunM Unit}
    (hm : Progress.perform ⟨h.runState, issued⟩ a = ⟨after (m h.runState), issued⟩)
    (ha : Progress.Admits ⟨h.runState, issued⟩ a) :
    (liftRun m : Hook σ τ Unit).StepsTo h issued fun _ _ issued' => issued' = issued := by
  have hstep := Run.Step.act a ha
  rw [hm, ← runState_after_liftRun] at hstep
  exact ⟨issued, .single hstep, fun _ _ _ => rfl⟩

/-- So is one that answers with a proxy, which has then been handed out. -/
theorem stepsTo_issue (a : Action) {m : RunM Proxy}
    (hm : Progress.perform ⟨h.runState, issued⟩ a =
      Progress.issue ⟨h.runState, issued⟩ (m h.runState))
    (ha : Progress.Admits ⟨h.runState, issued⟩ a) :
    (liftRun m : Hook σ τ Proxy).StepsTo h issued fun q _ issued' => issued' = q :: issued := by
  have hstep := Run.Step.act a ha
  rw [hm] at hstep
  cases hr : m h.runState with
  | error e s =>
    rw [hr] at hstep
    exact ⟨issued, .single (by rw [liftRun_of_error hr]; exact hstep), fun q h' hok => by
      rw [liftRun_of_error hr] at hok; cases hok⟩
  | ok q s =>
    rw [hr] at hstep
    exact ⟨q :: issued, .single (by rw [liftRun_of_ok hr]; exact hstep), fun q' h' hok => by
      rw [liftRun_of_ok hr] at hok; cases hok; rfl⟩

end Hook

/-- The hooks of a transform only take steps. What the transform relies on between its hooks is
`keeps`, which may speak of the proxies handed out so far, but neither of the input being processed
nor of the traversal that was started last. -/
structure Transform.Disciplined (t : Transform σ τ)
    (keeps : HookState σ τ → List Proxy → Prop) : Prop where
  prepare : ∀ h issued, keeps h issued → t.prepare.StepsTo h issued fun _ => keeps
  process : ∀ h issued visit nodes, keeps h issued →
    (t.process h.run.root visit nodes).StepsTo h issued fun _ => keeps
  conclude : ∀ h issued, keeps h issued → t.conclude.StepsTo h issued fun _ => keeps
  turn : ∀ h issued current, keeps h issued → keeps { h with run := { h.run with current } } issued
  visit : ∀ h issued tree, keeps h issued →
    keeps { h with workspace := (h.workspace.visit tree).2 } issued

namespace Job

variable {t : Transform σ τ} {keeps : HookState σ τ → List Proxy → Prop} {h : HookState σ τ}
  {issued : List Proxy}

/-- Turning to another input is a step. -/
theorem stepsTo_turn (ht : t.Disciplined keeps) (hk : keeps h issued)
    (current : Option SourceId) :
    (modify fun s => { s with run := { s.run with current } } : Hook σ τ Unit).StepsTo h issued
      fun _ => keeps :=
  ⟨issued, .single (.turn current), by rintro _ _ ⟨⟩; exact ht.turn h issued current hk⟩

/-- So is starting a traversal. -/
theorem stepsTo_visit (ht : t.Disciplined keeps) (hk : keeps h issued) (tree : Tree) :
    (Hook.onWorkspace (·.visit tree) : Hook σ τ (TraversalId × Cursor)).StepsTo h issued
      fun _ => keeps :=
  ⟨issued, .single (.aside _ rfl rfl), by rintro _ _ ⟨⟩; exact ht.visit h issued tree hk⟩

theorem stepsTo_processInputs (ht : t.Disciplined keeps) (inputs : List (SourceId × Tree))
    (hk : keeps h issued) : (processInputs t inputs).StepsTo h issued fun _ => keeps := by
  induction inputs generalizing h issued with
  | nil => exact Hook.stepsTo_pure hk
  | cons input rest ih =>
    obtain ⟨source, tree⟩ := input
    refine (stepsTo_turn ht hk (some source)).bind fun _ h₁ issued₁ hk₁ => ?_
    refine (stepsTo_visit ht hk₁ tree).bind fun (visit, nodes) h₂ issued₂ hk₂ => ?_
    refine Hook.stepsTo_get ?_
    exact (ht.process h₂ issued₂ visit nodes hk₂).bind fun _ h₃ issued₃ hk₃ => ih hk₃

/-- From the first hook to the last, a disciplined transform takes its run from step to step. -/
theorem stepsTo_hooks (ht : t.Disciplined keeps) (hk : keeps h issued) :
    (hooks t).StepsTo h issued fun _ => keeps := by
  refine (ht.prepare h issued hk).bind fun _ h₁ issued₁ hk₁ => ?_
  refine Hook.stepsTo_get ?_
  refine (stepsTo_processInputs ht _ hk₁).bind fun _ h₂ issued₂ hk₂ => ?_
  refine (stepsTo_turn ht hk₂ none).bind fun _ h₃ issued₃ hk₃ => ?_
  exact ht.conclude h₃ issued₃ hk₃

end Job

end Lineage
