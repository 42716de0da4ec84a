import Lineage.Proofs.Output.Attempts
import Lineage.Proofs.Run.Jobs
import Lineage.Proofs.Run.Steps
import Lineage.Proofs.Supply

/-! Requests to a job. However often and in whatever order a job is asked for its output and its
mappings, the first request calls its hooks, each once and in order, up to the first that fails. All
later ones are answered from what was kept then: they would be answered alike if the hooks were others.
-/

namespace Lineage

variable {σ τ : Type}

/-- What a job may be asked for. -/
inductive Request where
  | output
  | mappings
  | result
deriving DecidableEq

/-- What a job answers with. -/
inductive Answer where
  | tree (tree : Tree)
  | mappings (mappings : List Mapping)
  | result (out : RunOutput)

/-- What is asked for of a result. -/
def Request.part (out : RunOutput) : Request → Answer
  | .output => .tree out.tree
  | .mappings => .mappings out.mappings
  | .result => .result out

/-- The call of a hook. -/
inductive HookCall where
  | prepare
  | process (source : SourceId) (tree : Tree)
  | conclude
deriving DecidableEq

namespace HookCall

/-- An input is processed as the current one and with a traversal of its own, and after the inputs none
is current. -/
def run (t : Transform σ τ) : HookCall → Hook σ τ Unit
  | .prepare => t.prepare
  | .process source tree => fun h =>
    t.process h.run.root (h.workspace.visit tree).1.1 (h.workspace.visit tree).1.2
      (Job.turned h source tree)
  | .conclude => fun h => t.conclude { h with run := { h.run with current := none } }

/-- Makes the calls in order, up to the first that fails. -/
def runAll (t : Transform σ τ) : List HookCall → Hook σ τ Unit
  | [] => pure ()
  | call :: rest => do
    call.run t
    runAll t rest

def ofInput (input : SourceId × Tree) : HookCall := .process input.1 input.2

/-- One call before the inputs, one for each input, and one after them. -/
def all (inputs : List (SourceId × Tree)) : List HookCall :=
  .prepare :: (inputs.map ofInput ++ [.conclude])

/-- The calls for inputs as they are supplied: a source that is supplied more than once is processed
once, when it first comes, with the tree that came last. -/
def schedule (supplied : List (SourceId × Tree)) : List HookCall := all (OrderedMap.lastByKey supplied)

end HookCall

/-- The calls are made in order, and each succeeds. -/
inductive Completes (t : Transform σ τ) : List HookCall → HookState σ τ → HookState σ τ → Prop
  | nil {h : HookState σ τ} : Completes t [] h h
  | cons {call : HookCall} {rest : List HookCall} {h h₁ h₂ : HookState σ τ}
      (hcall : call.run t h = .ok () h₁) (hrest : Completes t rest h₁ h₂) :
      Completes t (call :: rest) h h₂

/-- The calls are made in order until one fails, and none is made after it. -/
def BreaksOff (t : Transform σ τ) (calls : List HookCall) (h : HookState σ τ) (e : RunError)
    (h' : HookState σ τ) : Prop :=
  ∃ made call rest h₁, calls = made ++ call :: rest ∧ Completes t made h h₁ ∧
    call.run t h₁ = .error e h'

/-- The hook leaves alone what its run started with. A hook gets at its run through the operations of
the run, none of which changes it. -/
def Hook.KeepsStart {α : Type} (m : Hook σ τ α) : Prop :=
  ∀ h : HookState σ τ, h.run.SameStart (after (m h)).run

structure Transform.KeepsStart (t : Transform σ τ) : Prop where
  prepare : Hook.KeepsStart t.prepare
  process : ∀ root visit nodes, Hook.KeepsStart (t.process root visit nodes)
  conclude : Hook.KeepsStart t.conclude

namespace Hook

variable {α β : Type} {m : Hook σ τ α} {f : α → Hook σ τ β}

theorem KeepsStart.bind (hm : m.KeepsStart) (hf : ∀ a, (f a).KeepsStart) :
    Hook.KeepsStart (m >>= f) := by
  intro h
  have hfirst := hm h
  cases hr : m h with
  | error e h' =>
    rw [bind_of_error hr]
    rwa [hr] at hfirst
  | ok a h' =>
    rw [bind_of_ok hr]
    rw [hr] at hfirst
    exact hfirst.trans (hf a h')

theorem keepsStart_of_run_eq (hm : ∀ h : HookState σ τ, (after (m h)).run = h.run) :
    m.KeepsStart := by
  intro h
  rw [hm]
  exact .refl _

/-- No operation of a run changes what the run started with. -/
theorem keepsStart_liftRun {m : RunM α} {p : Proxy} {isDirect : Bool}
    (hm : ∀ s, Effect s p isDirect (after (m s))) : (liftRun m : Hook σ τ α).KeepsStart := by
  intro h
  have hrun := (hm h.runState).sameStart
  rwa [← runState_after_liftRun] at hrun

end Hook

section Calls

variable {t : Transform σ τ} {calls : List HookCall} {h h' : HookState σ τ}

/-- Calls come to an end or break off. -/
theorem HookCall.runAll_cases (t : Transform σ τ) (calls : List HookCall) (h : HookState σ τ) :
    (∃ h', Completes t calls h h' ∧ runAll t calls h = .ok () h') ∨
    ∃ e h', BreaksOff t calls h e h' ∧ runAll t calls h = .error e h' := by
  induction calls generalizing h with
  | nil => exact .inl ⟨h, .nil, rfl⟩
  | cons call rest ih =>
    rw [runAll]
    cases hcall : call.run t h with
    | error e h₁ =>
      exact .inr ⟨e, h₁, ⟨[], call, rest, h, rfl, .nil, hcall⟩, bind_of_error hcall⟩
    | ok u h₁ =>
      rw [bind_of_ok hcall]
      rcases ih h₁ with ⟨h₂, hrest, hok⟩ | ⟨e, h₂, hbreaks, herr⟩
      · exact .inl ⟨h₂, .cons hcall hrest, hok⟩
      · obtain ⟨made, last, others, h₃, hsplit, hmade, hlast⟩ := hbreaks
        refine .inr ⟨e, h₂, ⟨call :: made, last, others, h₃, ?_, .cons hcall hmade, hlast⟩, herr⟩
        rw [hsplit, List.cons_append]

theorem completes_of_runAll {u : Unit} (hrun : HookCall.runAll t calls h = .ok u h') :
    Completes t calls h h' := by
  rcases HookCall.runAll_cases t calls h with ⟨h₁, hcalls, hok⟩ | ⟨_, _, _, herr⟩
  · cases hrun.symm.trans hok
    exact hcalls
  · cases hrun.symm.trans herr

theorem breaksOff_of_runAll {e : RunError} (hrun : HookCall.runAll t calls h = .error e h') :
    BreaksOff t calls h e h' := by
  rcases HookCall.runAll_cases t calls h with ⟨_, _, hok⟩ | ⟨e₁, h₁, hcalls, herr⟩
  · cases hrun.symm.trans hok
  · cases hrun.symm.trans herr
    exact hcalls

theorem HookCall.keepsStart_run (ht : t.KeepsStart) (call : HookCall) :
    Hook.KeepsStart (call.run t) := by
  intro h
  cases call with
  | prepare => exact ht.prepare h
  | process source tree =>
    have hturned : h.run.SameStart (Job.turned h source tree).run := ⟨rfl, rfl, rfl⟩
    exact hturned.trans (ht.process _ _ _ _)
  | conclude =>
    have hconclude := ht.conclude { h with run := { h.run with current := none } }
    exact ⟨hconclude.root_eq, hconclude.table_eq, hconclude.inputs_eq⟩

theorem Completes.sameStart (ht : t.KeepsStart) (hc : Completes t calls h h') :
    h.run.SameStart h'.run := by
  induction hc with
  | nil => exact .refl _
  | @cons call _ h _ _ hcall _ ih =>
    have hfirst := HookCall.keepsStart_run ht call h
    rw [hcall] at hfirst
    exact hfirst.trans ih

end Calls

namespace Job

variable {t : Transform σ τ}

theorem processInputs_cons (input : SourceId × Tree) (rest : List (SourceId × Tree)) :
    processInputs t (input :: rest) = HookCall.run t (.ofInput input) >>= fun _ =>
      processInputs t rest := rfl

theorem processInputs_eq_runAll (inputs : List (SourceId × Tree)) (calls : List HookCall) :
    (processInputs t inputs >>= fun _ => HookCall.runAll t calls) =
      HookCall.runAll t (inputs.map HookCall.ofInput ++ calls) := by
  induction inputs with
  | nil => exact pure_bind _ _
  | cons input rest ih =>
    rw [processInputs_cons, bind_assoc, ih]
    rfl

/-- The hooks of a job are the calls for the inputs of its run, one after the other. -/
theorem hooks_eq_runAll (ht : t.KeepsStart) (h : HookState σ τ) :
    hooks t h = HookCall.runAll t (HookCall.all h.run.inputs.entries) h := by
  have hconclude : HookCall.runAll t [.conclude] = HookCall.run t .conclude := bind_pure _
  rw [HookCall.all, HookCall.runAll, ← processInputs_eq_runAll, hconclude]
  cases hprepare : t.prepare h with
  | error e h₁ => exact (bind_of_error hprepare).trans (bind_of_error hprepare).symm
  | ok u h₁ =>
    have hsame : h₁.run.inputs = h.run.inputs := by
      have hstart := (ht.prepare h).inputs_eq
      rwa [hprepare] at hstart
    have hrest : hooks t h = (processInputs t h₁.run.inputs.entries >>= fun _ =>
        HookCall.run t .conclude) h₁ := bind_of_ok hprepare
    have hcall : HookCall.run t .prepare h = .ok u h₁ := hprepare
    have hruns : (HookCall.run t .prepare >>= fun _ => processInputs t h.run.inputs.entries >>=
        fun _ => HookCall.run t .conclude) h = _ := bind_of_ok hcall
    rw [hrest, hsame, hruns]

section Respond

variable {s s' : JobState σ τ}

def respond (t : Transform σ τ) : Request → JobM σ τ Answer
  | .output => return .tree (← output t)
  | .mappings => return .mappings (← finalMappings t)
  | .result => return .result (← result t)

theorem respond_of_demand (hd : demand t s = .ok () s') (hs' : s'.job.status = .done)
    (r : Request) :
    respond t r s = .ok (r.part ⟨s'.job.run.root.tree, s'.job.mappings⟩) s' := by
  cases r with
  | output => exact bind_of_ok (output_of_demand hd)
  | mappings => exact bind_of_ok (finalMappings_of_demand hd)
  | result => exact bind_of_ok (result_of_demand hd hs')

theorem respond_of_error {e : RunError} (hd : demand t s = .error e s') (r : Request) :
    respond t r s = .error e s' := by
  cases r with
  | output | mappings => exact bind_of_error (bind_of_error hd)
  | result => exact bind_of_error (bind_of_error (bind_of_error hd))

theorem demand_of_failed {reason : String} (hs : s.job.status = .failed reason) :
    demand t s = .error (.failedEarlier reason) s := by
  unfold demand
  rw [get_bind, hs]
  rfl

/-- A job that is done gives the same answers again and again. -/
theorem attempt_of_done (hs : s.job.status = .done) (requests : List Request) :
    attempt (respond t) requests s =
      (requests.map fun r => .ok (r.part ⟨s.job.run.root.tree, s.job.mappings⟩), s) := by
  have hrespond := respond_of_demand (t := t) (demand_of_done hs) hs
  rw [attempt_of_after_eq fun r _ => by rw [hrespond, after]]
  simp only [hrespond, outcome]

/-- One that has failed names the reason again and again. -/
theorem attempt_of_failed {reason : String} (hs : s.job.status = .failed reason)
    (requests : List Request) :
    attempt (respond t) requests s =
      (requests.map fun _ => .error (.failedEarlier reason), s) := by
  have hrespond := respond_of_error (t := t) (demand_of_failed hs)
  rw [attempt_of_after_eq fun r _ => by rw [hrespond, after]]
  simp only [hrespond, outcome]

/-- The first request runs the hooks, and all are answered from what they leave behind. -/
theorem attempt_of_pending (hs : s.job.status = .pending) (first : Request) (later : List Request) :
    (∃ e h, hooks t s.hookState = .error e h ∧ attempt (respond t) (first :: later) s =
      (.error e :: later.map fun _ => .error (.failedEarlier e.message),
        h.finished (.failed e.message) [])) ∨
    ∃ h, hooks t s.hookState = .ok () h ∧ attempt (respond t) (first :: later) s =
      ((first :: later).map fun r => .ok (r.part
        ⟨h.run.root.tree, h.workspace.tableEntries h.run.table⟩),
        h.finished .done (h.workspace.tableEntries h.run.table)) := by
  rcases demand_cases (t := t) hs with ⟨e, h, hhooks, hdemand⟩ | ⟨h, hhooks, hdemand⟩
  · refine .inl ⟨e, h, hhooks, ?_⟩
    rw [attempt_cons, respond_of_error hdemand, outcome, after, attempt_of_failed rfl]
  · refine .inr ⟨h, hhooks, ?_⟩
    rw [attempt_cons, respond_of_demand hdemand rfl, outcome, after, attempt_of_done rfl]
    rfl

/-- However it was asked, the job ends where its hooks did. -/
theorem exists_finished_of_pending (hs : s.job.status = .pending) (first : Request)
    (later : List Request) : ∃ status mappings, status ≠ .pending ∧
      (attempt (respond t) (first :: later) s).2 =
        (after (hooks t s.hookState)).finished status mappings := by
  rcases attempt_of_pending (t := t) hs first later with ⟨e, h, hhooks, heq⟩ | ⟨h, hhooks, heq⟩
  · exact ⟨.failed e.message, [], by simp, by rw [heq, hhooks, after]⟩
  · exact ⟨.done, _, by simp, by rw [heq, hhooks, after]⟩

/-- Once it has run, a job does not ask its transform. -/
theorem attempt_of_ne_pending (hs : s.job.status ≠ .pending) (t' : Transform σ τ)
    (requests : List Request) :
    attempt (respond t') requests s = attempt (respond t) requests s := by
  cases hstatus : s.job.status with
  | pending => exact absurd hstatus hs
  | done => rw [attempt_of_done hstatus, attempt_of_done hstatus]
  | failed reason => rw [attempt_of_failed hstatus, attempt_of_failed hstatus]

end Respond

/-- The hooks of a new job are called as its inputs are supplied. -/
theorem hooks_launch (ht : t.KeepsStart) (id : RunId) (inputs : List (SourceId × Tree)) (own : τ)
    (ambient : σ) (w : Workspace) :
    hooks t (launch id inputs own ambient w).hookState =
      HookCall.runAll t (HookCall.schedule inputs) (launch id inputs own ambient w).hookState := by
  have hinputs : (launch id inputs own ambient w).hookState.run.inputs.entries =
      OrderedMap.lastByKey inputs := OrderedMap.entries_ofList inputs
  rw [hooks_eq_runAll ht, hinputs]
  rfl

/-- Whatever a new job is asked for, its hooks are called for the first request and never again. If none
fails, every request is answered from the output root and from what its table holds at the end. If one
fails, the first request is answered by its error and all others by a reminder of it. The other requests
are answered without asking the transform. -/
theorem answers_of_requests (ht : t.KeepsStart) (id : RunId) (inputs : List (SourceId × Tree))
    (own : τ) (ambient : σ) (w : Workspace) (first : Request) (later : List Request) :
    ((∃ h, Completes t (HookCall.schedule inputs) (launch id inputs own ambient w).hookState h ∧
        attempt (respond t) (first :: later) (launch id inputs own ambient w) =
          ((first :: later).map fun r => .ok (r.part
              ⟨(launch id inputs own ambient w).job.run.root.tree,
                h.workspace.tableEntries (launch id inputs own ambient w).job.run.table⟩),
            h.finished .done
              (h.workspace.tableEntries (launch id inputs own ambient w).job.run.table))) ∨
      ∃ e h, BreaksOff t (HookCall.schedule inputs) (launch id inputs own ambient w).hookState e h ∧
        attempt (respond t) (first :: later) (launch id inputs own ambient w) =
          (.error e :: later.map fun _ => .error (.failedEarlier e.message),
            h.finished (.failed e.message) [])) ∧
    ∀ t' : Transform σ τ,
      attempt (respond t') later (after (respond t first (launch id inputs own ambient w))) =
        attempt (respond t) later (after (respond t first (launch id inputs own ambient w))) := by
  have hpending : (launch id inputs own ambient w).job.status = .pending := rfl
  constructor
  · rcases attempt_of_pending (t := t) hpending first later with
      ⟨e, h, hhooks, heq⟩ | ⟨h, hhooks, heq⟩
    · rw [hooks_launch ht] at hhooks
      exact .inr ⟨e, h, breaksOff_of_runAll hhooks, heq⟩
    · rw [hooks_launch ht] at hhooks
      have hcalls := completes_of_runAll hhooks
      have hroot : h.run.root = (launch id inputs own ambient w).job.run.root :=
        (hcalls.sameStart ht).root_eq
      have htable : h.run.table = (launch id inputs own ambient w).job.run.table :=
        (hcalls.sameStart ht).table_eq
      rw [hroot, htable] at heq
      exact .inl ⟨h, hcalls, heq⟩
  · intro t'
    obtain ⟨status, mappings, hstatus, hfirst⟩ :=
      exists_finished_of_pending (t := t) hpending first []
    have hafter : after (respond t first (launch id inputs own ambient w)) = _ := hfirst
    rw [hafter]
    exact attempt_of_ne_pending hstatus t' later

/-- Writes its own journal and one member for each input, and breaks off at the input `bad`. -/
def chronicle (bad : String) : Transform Unit (List String) where
  prepare := note "before"
  process root _ _ := do
    let name := ((← get).run.current.getD ⟨""⟩).name
    note name
    Hook.liftRun (Run.place root (.key name) .root .null false)
    if name = bad then throw (.transform name)
  conclude := note "after"
where
  note (entry : String) : Hook Unit (List String) Unit :=
    modify fun h => { h with transform := h.transform ++ [entry] }

theorem keepsStart_chronicle (bad : String) : (chronicle bad).KeepsStart := by
  have hnote (entry : String) : Hook.KeepsStart (chronicle.note entry) :=
    Hook.keepsStart_of_run_eq fun _ => rfl
  refine ⟨hnote _, fun root _ _ => ?_, hnote _⟩
  refine .bind (Hook.keepsStart_of_run_eq fun _ => rfl) fun h => .bind (hnote _) fun _ => ?_
  refine .bind (Hook.keepsStart_liftRun fun s => Run.effect_write root _ _) fun _ => ?_
  split <;> exact Hook.keepsStart_of_run_eq fun _ => rfl

/-- Two inputs, one of them supplied twice. -/
def supplies : List (SourceId × Tree) := [(⟨"b"⟩, .null), (⟨"a"⟩, .null), (⟨"b"⟩, .bool true)]

/-- What is answered to one who keeps asking, and what is left behind. -/
def pestered (bad : String) : List (Except RunError Answer) × JobState Unit (List String) :=
  attempt (respond (chronicle bad)) [.mappings, .result, .output] (launch default supplies [] () {})

theorem answers_chronicle :
    (∃ h, Completes (chronicle "") (HookCall.schedule supplies)
        (launch default supplies [] () {}).hookState h ∧
      h.transform = ["before", "b", "a", "after"] ∧ (h.workspace.tableEntries 0).length = 2 ∧
      (pestered "").1 = [.ok (.mappings (h.workspace.tableEntries 0)),
        .ok (.result ⟨.container 0, h.workspace.tableEntries 0⟩), .ok (.tree (.container 0))]) ∧
    ∃ e h, BreaksOff (chronicle "b") (HookCall.schedule supplies)
        (launch default supplies [] () {}).hookState e h ∧
      h.transform = ["before", "b"] ∧ (h.workspace.tableEntries 0).length = 1 ∧
      (pestered "b").1 = [.error e, .error (.failedEarlier e.message),
        .error (.failedEarlier e.message)] := by
  have hanswers (bad : String) := (answers_of_requests (keepsStart_chronicle bad) default supplies [] ()
    {} .mappings [.result, .output]).1
  constructor
  · have hdone : (pestered "").2.job.status = .done := by decide +kernel
    have hjournal : (pestered "").2.job.transform = ["before", "b", "a", "after"] := by decide +kernel
    have hlength : ((pestered "").2.workspace.tableEntries 0).length = 2 := by decide +kernel
    rcases hanswers "" with ⟨h, hcalls, hpestered⟩ | ⟨e, h, _, hpestered⟩
    · rw [show pestered "" = _ from hpestered] at hjournal hlength
      rw [HookState.finished, Workspace.tableEntries_sealed] at hlength
      exact ⟨h, hcalls, hjournal, hlength, congrArg Prod.fst hpestered⟩
    · rw [show pestered "" = _ from hpestered] at hdone
      cases hdone
  · have hdone : (pestered "b").2.job.status ≠ .done := by decide +kernel
    have hjournal : (pestered "b").2.job.transform = ["before", "b"] := by decide +kernel
    have hlength : ((pestered "b").2.workspace.tableEntries 0).length = 1 := by decide +kernel
    rcases hanswers "b" with ⟨h, _, hpestered⟩ | ⟨e, h, hcalls, hpestered⟩
    · rw [show pestered "b" = _ from hpestered] at hdone
      exact absurd rfl hdone
    · rw [show pestered "b" = _ from hpestered] at hjournal hlength
      rw [HookState.finished, Workspace.tableEntries_sealed] at hlength
      exact ⟨e, h, hcalls, hjournal, hlength, congrArg Prod.fst hpestered⟩

end Job

end Lineage
