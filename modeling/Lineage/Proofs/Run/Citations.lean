import Lineage.Proofs.Run.Soundness

/-! Where mappings come from. A step of a sound run records nothing, or it records the mapping of one
write and behind it those of the leaves that were written along. Leaves originate below the origin that
the write named, so that whatever a run has recorded goes back to an origin that some write named. -/

namespace Lineage

/-- The mapping has its origin in the same document as the other one, and it lies below what the other one
maps as its origin lies below that of the other one. -/
def Mapping.Below (m n : Mapping) : Prop :=
  m.source = n.source ∧ ∃ rest, m.generated.tokens = n.generated.tokens ++ rest ∧
    m.origin.tokens = n.origin.tokens ++ rest

theorem Mapping.below_refl (m : Mapping) : m.Below m :=
  ⟨rfl, [], (List.append_nil _).symm, (List.append_nil _).symm⟩

theorem Proxy.below_of_mem_mappingsOf (p : Proxy) (key : Segment) (write : TaggedWrite)
    (origin : Pointer) (h : Heap) {m : Mapping} (hm : m ∈ p.mappingsOf key write origin h) :
    m.Below (p.topMapping key write origin) := by
  rcases p.mem_mappingsOf key write origin h hm with rfl | ⟨id, _, _, leaf, _, rfl⟩
  · exact Mapping.below_refl _
  · exact ⟨rfl, leaf.pointer.tokens, Pointer.tokens_join _ _, Pointer.tokens_join _ _⟩

namespace RunState

/-- The place is there in the input of that name. -/
def Finds (s : RunState) (source : SourceId) (place : Pointer) : Prop :=
  ∃ tree, s.run.inputs.get? source = some tree ∧ (s.workspace.heap.resolve? tree place).isSome

/-- The second state has the mappings of the first, and perhaps those of one write. -/
def RecordsWrite (s s' : RunState) : Prop :=
  s'.mappings = s.mappings ∨ ∃ top leaves, s'.mappings = s.mappings ++ top :: leaves ∧
    ∀ m ∈ top :: leaves, m.Below top

variable {s s' : RunState} {p : Proxy}

/-- What was there stays there. -/
theorem Finds.extends {source : SourceId} {place : Pointer} (hf : s.Finds source place)
    (hinputs : s'.run.inputs = s.run.inputs) (hx : s.workspace.heap.Extends s'.workspace.heap) :
    s'.Finds source place := by
  obtain ⟨tree, htree, hplace⟩ := hf
  obtain ⟨t, ht⟩ := Option.isSome_iff_exists.mp hplace
  refine ⟨tree, ?_, Option.isSome_iff_exists.mpr ⟨t, hx.follow? ht⟩⟩
  rw [hinputs]
  exact htree

theorem extends_of_effect {isDirect : Bool} (heff : Effect s p isDirect s') :
    s.workspace.heap.Extends s'.workspace.heap := by
  cases heff with
  | grown hg _ => exact hg.extends
  | written hg _ hacc _ => exact hg.extends.trans (extends_written hacc)
  | allocated c _ _ _ hacc _ =>
    exact (Heap.grows_alloc s.workspace.heap c).extends.trans (extends_written hacc)

theorem recordsWrite_written (hsink : p.sink.table = s.run.table) {key : Segment}
    {write : TaggedWrite} {origin : Pointer} {c c' : Container}
    (hacc : Accepts s p key write origin c c') :
    s.RecordsWrite (s.written p key write origin c') :=
  .inr ⟨_, _, mappings_written hsink hacc, fun _ hm => p.below_of_mem_mappingsOf key write origin _ hm⟩

theorem recordsWrite_of_effect {isDirect : Bool} (hg : s.Genuine p)
    (hd : isDirect = true → s.Owns p) (heff : Effect s p isDirect s') : s.RecordsWrite s' := by
  cases heff with
  | grown => exact .inl rfl
  | @written heap _ _ _ _ _ _ _ hacc hreg =>
    have ho : s.Owns p := hreg.elim hd fun ⟨q, hq⟩ => hg.owns hq
    exact recordsWrite_written (s := s.withHeap heap) ho.2 hacc
  | allocated c _ _ _ hacc hreg =>
    exact recordsWrite_written (s := Run.allocated s c) (hg.owns hreg).2 hacc

end RunState

namespace Progress

variable {p p' : Progress}

theorem Sound.recordsWrite (hp : p.Sound) (hstep : Run.Step p p') :
    p.state.RecordsWrite p'.state := by
  cases hstep with
  | act a ha =>
    exact RunState.recordsWrite_of_effect (hp.genuine ha) (hp.owns_of_isDirect ha) (p.effect_perform a)
  | aside w hh ht =>
    left
    simp only [RunState.mappings, Workspace.tableEntries, ht]
  | grow | turn => exact .inl rfl

end Progress

namespace Run

variable {p p' : Progress}

theorem Step.extends (h : Step p p') :
    p.state.workspace.heap.Extends p'.state.workspace.heap := by
  cases h with
  | act a ha => exact RunState.extends_of_effect (p.effect_perform a)
  | grow heap hg _ => exact hg.extends
  | aside w hh _ =>
    simp only [hh]
    exact (Heap.Grows.refl _).extends
  | turn => exact (Heap.Grows.refl _).extends

theorem Steps.finds (h : Steps p p') {source : SourceId} {place : Pointer}
    (hf : p.state.Finds source place) : p'.state.Finds source place := by
  induction h with
  | refl => exact hf
  | tail _ hstep ih => exact ih.extends hstep.inputs_eq hstep.extends

/-- A step that records no write, or one whose origin is a place of the input that it names. -/
structure CitedStep (p p' : Progress) : Prop where
  step : Step p p'
  finds : ∀ top leaves, p'.state.mappings = p.state.mappings ++ top :: leaves →
    p.state.Finds top.source top.origin

abbrev CitedSteps : Progress → Progress → Prop := Relation.ReflTransGen CitedStep

theorem CitedSteps.steps (h : CitedSteps p p') : Steps p p' :=
  Relation.ReflTransGen.mono (fun _ _ hstep => CitedStep.step hstep) _ _ h

/-- Whatever has been recorded since lies below the mapping of a write whose origin was there. -/
theorem CitedSteps.exists_finds (h : CitedSteps p p') (hp : p.Sound) {m : Mapping}
    (hm : m ∈ p'.state.mappings) :
    m ∈ p.state.mappings ∨ ∃ q, Steps p q ∧ ∃ top ∈ p'.state.mappings,
      q.state.Finds top.source top.origin ∧ m.Below top := by
  induction h with
  | refl => exact .inl hm
  | @tail q q' hsteps hstep ih =>
    have hsound := hp.steps (CitedSteps.steps hsteps)
    rcases hsound.recordsWrite hstep.step with hsame | ⟨top, leaves, hmore, hbelow⟩
    · rw [hsame] at hm ⊢
      exact ih hm
    · have htop : top ∈ q'.state.mappings := by simp [hmore]
      rw [hmore] at hm
      rcases List.mem_append.mp hm with hm | hm
      · refine (ih hm).imp_right fun ⟨r, hr, n, hn, hfinds⟩ => ⟨r, hr, n, ?_, hfinds⟩
        rw [hmore]
        exact List.mem_append_left _ hn
      · exact .inr ⟨q, CitedSteps.steps hsteps, top, htop, hstep.finds top leaves hmore, hbelow m hm⟩

/-- A step that leaves the mappings alone names no origin. -/
theorem citedStep_of_mappings_eq (hstep : Step p p')
    (hsame : p'.state.mappings = p.state.mappings) : CitedStep p p' := by
  refine ⟨hstep, fun top leaves hmore => ?_⟩
  rw [hsame] at hmore
  simp at hmore

theorem citedStep_place {s : RunState} {issued : List Proxy} {target : Proxy} {source : SourceId}
    {origin : Pointer} (ht : target ∈ issued) (hsink : target.sink.table = s.run.table)
    (hcurrent : s.run.current = some source) (hfinds : s.Finds source origin) (key : Segment)
    (v : Tree) (recurse : Bool) :
    CitedStep ⟨s, issued⟩ ⟨after (place target key origin v recurse s), issued⟩ := by
  refine ⟨.act (.place target key origin v recurse) (.inl ht), fun top leaves hmore => ?_⟩
  have hsource : (attributed s { value := v, origin := some origin, recurse }).source =
      some source := hcurrent
  simp only [place] at hmore
  rcases write_cases s target key { value := v, origin := some origin, recurse } with
    ⟨e, he⟩ | ⟨q, o, c, c', _, hacc, hok⟩
  · rw [he] at hmore
    simp [after] at hmore
  · rw [hok, after, RunState.mappings_written hsink hacc, List.append_cancel_left_eq] at hmore
    obtain rfl := (List.cons.inj hmore).1
    have horigin : some origin = some o := hacc.origin_eq
    cases horigin
    simp only [Proxy.topMapping, hsource, Option.getD_some]
    exact hfinds

end Run

section Hooks

variable {σ τ : Type} {t : Transform σ τ} {keeps : HookState σ τ → List Proxy → Prop}
  {h : HookState σ τ} {issued : List Proxy}

/-- The hooks of a transform only take steps that cite. What the transform relies on between its hooks
is `keeps`. -/
structure Transform.Cites (t : Transform σ τ) (keeps : HookState σ τ → List Proxy → Prop) :
    Prop where
  prepare : ∀ h issued, keeps h issued → t.prepare.StepsBy Run.CitedStep h issued fun _ => keeps
  process : ∀ h issued, keeps h issued → ∀ e ∈ h.run.inputs.entries,
    (t.process h.run.root (h.workspace.visit e.2).1.1 (h.workspace.visit e.2).1.2).StepsBy
      Run.CitedStep (Job.turned h e.1 e.2) issued fun _ => keeps
  conclude : ∀ h issued, keeps h issued →
    t.conclude.StepsBy Run.CitedStep { h with run := { h.run with current := none } } issued
      fun _ => keeps

/-- Placing a value for the input being processed, with an origin that is there. -/
theorem Hook.stepsBy_place {target : Proxy} {source : SourceId} {origin : Pointer}
    (ht : target ∈ issued) (hsink : target.sink.table = h.run.table)
    (hcurrent : h.run.current = some source) (hfinds : h.runState.Finds source origin) (key : Segment)
    (v : Tree) (recurse : Bool) :
    (liftRun (Run.place target key origin v recurse) : Hook σ τ Unit).StepsBy Run.CitedStep h issued
      fun _ h' issued' => issued' = issued ∧ h'.run.current = h.run.current := by
  have hstep : Run.CitedStep ⟨h.runState, issued⟩
      ⟨after (Run.place target key origin v recurse h.runState), issued⟩ :=
    Run.citedStep_place ht hsink hcurrent hfinds key v recurse
  have heff := Run.effect_write (s := h.runState) target key { value := v, origin := some origin, recurse }
  rw [← runState_after_liftRun] at hstep
  refine ⟨issued, .single hstep, fun _ h' hok => ⟨rfl, ?_⟩⟩
  have hafter := runState_after_liftRun (Run.place target key origin v recurse) h
  rw [hok] at hafter
  exact (congrArg (·.run.current) hafter).trans heff.current_eq

namespace Job

theorem stepsBy_processInputs (ht : t.Cites keeps) (inputs : List (SourceId × Tree))
    (hinputs : ∀ e ∈ inputs, e ∈ h.run.inputs.entries) (hk : keeps h issued) :
    (processInputs t inputs).StepsBy Run.CitedStep h issued fun _ => keeps := by
  induction inputs generalizing h issued with
  | nil => exact Hook.stepsBy_pure hk
  | cons input rest ih =>
    obtain ⟨source, tree⟩ := input
    have hturned : Run.CitedSteps ⟨h.runState, issued⟩
        ⟨(turned h source tree).runState, issued⟩ := by
      refine .tail (.single (Run.citedStep_of_mappings_eq (.turn (some source)) rfl)) ?_
      exact Run.citedStep_of_mappings_eq (.aside (h.workspace.visit tree).2 rfl rfl) rfl
    have hrun : processInputs t ((source, tree) :: rest) h =
        (t.process h.run.root (h.workspace.visit tree).1.1 (h.workspace.visit tree).1.2 >>=
          fun _ => processInputs t rest) (turned h source tree) := rfl
    have hprocess : (t.process h.run.root (h.workspace.visit tree).1.1
        (h.workspace.visit tree).1.2).StepsBy Run.CitedStep (turned h source tree) issued
        fun _ h' issued' => keeps h' issued' ∧ h'.run.inputs = h.run.inputs := by
      refine (ht.process h issued hk (source, tree) (hinputs _ List.mem_cons_self)).mono ?_
      exact fun _ h' _ hsteps hk' => ⟨hk', (Run.CitedSteps.steps hsteps).fixed.2.2⟩
    refine .head hrun hturned (hprocess.bind ?_)
    rintro _ h' issued' ⟨hk', hsame⟩
    refine ih (fun e he => ?_) hk'
    rw [hsame]
    exact hinputs e (List.mem_cons_of_mem _ he)

/-- Then so do all hooks together. -/
theorem stepsBy_hooks (ht : t.Cites keeps) (hk : keeps h issued) :
    (hooks t).StepsBy Run.CitedStep h issued fun _ => keeps := by
  refine (ht.prepare h issued hk).bind fun _ h₁ issued₁ hk₁ => Hook.stepsBy_get ?_
  refine (stepsBy_processInputs ht _ (fun _ he => he) hk₁).bind fun _ h₂ issued₂ hk₂ => ?_
  have hrun : (modify (fun s : HookState σ τ => { s with run := { s.run with current := none } }) >>=
      fun _ => t.conclude : Hook σ τ Unit) h₂ =
        t.conclude { h₂ with run := { h₂.run with current := none } } := rfl
  refine .head hrun ?_ (ht.conclude h₂ issued₂ hk₂)
  exact .single (Run.citedStep_of_mappings_eq (.turn none) rfl)

end Job

end Hooks

end Lineage
