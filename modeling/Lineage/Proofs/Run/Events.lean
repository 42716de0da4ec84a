import Lineage.Proofs.Run.Steps

/-! Runs as sequences of events. Not every hook takes only steps: one may ask its run for things through
proxies that it has made up, and change what lies beside the run. An event is an action or something
beside it. Which actions are admitted, and what may happen beside them, is up to those who speak of
events. -/

namespace Lineage

/-- A run that has just started has handed out its root. -/
abbrev Progress.initial (id : RunId) (inputs : List (SourceId × Tree)) (w : Workspace) : Progress :=
  ⟨Run.start id inputs w, [(Run.start id inputs w).run.root]⟩

namespace Run

/-- One event of a run: an action, whether it is refused or not, or something that happens beside the
actions and hands out nothing. -/
inductive Event (admits : Progress → Action → Prop) (beside : RunState → RunState → Prop) :
    Progress → Progress → Prop
  | act {p : Progress} (a : Action) (ha : admits p a) : Event admits beside p (p.perform a)
  | beside {s s' : RunState} {issued : List Proxy} (h : beside s s') :
    Event admits beside ⟨s, issued⟩ ⟨s', issued⟩

abbrev Events (admits : Progress → Action → Prop) (beside : RunState → RunState → Prop) :
    Progress → Progress → Prop :=
  Relation.ReflTransGen (Event admits beside)

variable {admits : Progress → Action → Prop} {beside : RunState → RunState → Prop} {p p' : Progress}

/-- What every event keeps is kept by all of them together. -/
theorem Events.keeps {I : Progress → Prop}
    (hact : ∀ p a, I p → admits p a → I (p.perform a))
    (hbeside : ∀ s s' issued, I ⟨s, issued⟩ → beside s s' → I ⟨s', issued⟩)
    (hevents : Events admits beside p p') (hp : I p) : I p' := by
  induction hevents with
  | refl => exact hp
  | tail _ hevent ih =>
    cases hevent with
    | act a ha => exact hact _ a ih ha
    | beside h => exact hbeside _ _ _ ih h

theorem Events.mono_beside {beside' : RunState → RunState → Prop}
    (hbeside : ∀ {s s'}, beside s s' → beside' s s') (hevents : Events admits beside p p') :
    Events admits beside' p p' := by
  refine Relation.ReflTransGen.mono (fun q q' hevent => ?_) p p' hevents
  cases hevent with
  | act a ha => exact .act a ha
  | beside h => exact .beside (hbeside h)

/-- Each action is admitted when its turn comes. -/
def AdmitsAll (admits : Progress → Action → Prop) : Progress → List Action → Prop
  | _, [] => True
  | p, a :: rest => admits p a ∧ AdmitsAll admits (p.perform a) rest

instance AdmitsAll.decidable [∀ p a, Decidable (admits p a)] (p : Progress) :
    ∀ actions, Decidable (AdmitsAll admits p actions)
  | [] => inferInstanceAs (Decidable True)
  | a :: rest =>
    have := AdmitsAll.decidable (p.perform a) rest
    inferInstanceAs (Decidable (admits p a ∧ AdmitsAll admits (p.perform a) rest))

theorem AdmitsAll.events {actions : List Action} (h : AdmitsAll admits p actions) :
    Events admits beside p (actions.foldl Progress.perform p) := by
  induction actions generalizing p with
  | nil => exact .refl
  | cons a rest ih => exact .head (.act a h.1) (ih h.2)

end Run

section CarryOut

variable {σ τ : Type}

/-- Does what an action does, and goes on if it is refused. -/
def Hook.carryOut (a : Action) : Hook σ τ Unit :=
  modify fun h =>
    let s := (Progress.perform ⟨h.runState, []⟩ a).state
    { h with workspace := s.workspace, run := s.run }

/-- Carries out actions after the inputs. -/
def Transform.concluding (actions : List Action) : Transform σ τ where
  process _ _ _ := pure ()
  conclude := actions.forM Hook.carryOut

/-- What an action does is no matter of which proxies have been handed out. -/
theorem Progress.state_perform (s : RunState) (issued issued' : List Proxy) (a : Action) :
    (Progress.perform ⟨s, issued⟩ a).state = (Progress.perform ⟨s, issued'⟩ a).state := by
  cases a with
  | allocateObject | allocateArray | openObject | openArray =>
    simp only [Progress.perform, Progress.state_issue]
  | _ => rfl

theorem Hook.runState_carryOut (actions : List Action) (h : HookState σ τ) (p : Progress)
    (hp : p.state = h.runState) :
    (after ((actions.forM Hook.carryOut : Hook σ τ Unit) h)).runState =
      (actions.foldl Progress.perform p).state := by
  induction actions generalizing h p with
  | nil => exact hp.symm
  | cons a rest ih =>
    have hrest : (List.forM (a :: rest) Hook.carryOut : Hook σ τ Unit) h = _ := bind_of_ok rfl
    rw [hrest, List.foldl_cons]
    refine ih _ _ ?_
    obtain ⟨s, issued⟩ := p
    subst hp
    exact Progress.state_perform h.runState issued [] a

end CarryOut

end Lineage
