import Lineage.Proofs.Run.Completion
import Lineage.Proofs.Store.Registrations
import Lineage.Run.NodeTransform

/-! Histories of a store. Documents are added, trees are written, mapping tables are retained, and
stages are run, in any order and under any names, and hooks of a stage may do all this as well. What the
store answers follows from what was done to it. A document that is added again after a stage has
generated it keeps the table of the stage, so it is not an authored one. -/

namespace Lineage.Stage

/-- What a stage does to its store after its job, newest first. -/
def outcome (output : SourceId) : EStateM.Result RunError (StageState MemoryStore) RunOutput →
    List Registration
  | .ok o _ => [.retain output o.mappings, .write output o.tree]
  | .error _ _ => []

/-- States that come about from an empty store, with the log of what was done to it, newest first. -/
inductive History : StageState MemoryStore → List Registration → Prop
  | empty (w : Workspace) : History ⟨w, {}⟩ []
  /-- Trees may be built and changed at any time. -/
  | elsewhere {s : StageState MemoryStore} {log : List Registration} (w : Workspace)
      (hs : History s log) : History { s with workspace := w } log
  | register {s : StageState MemoryStore} {log : List Registration} (r : Registration)
      (hs : History s log) : History { s with ambient := s.ambient.register r } (r :: log)
  /-- A stage reads its inputs; its hooks do to the store what `hooked` says. -/
  | stage {s : StageState MemoryStore} {log hooked : List Registration} {τ : Type}
      {t : Transform MemoryStore τ} {own : τ} {id : RunId} {inputs : List SourceId}
      {output : SourceId} {trees : List (SourceId × Tree)}
      (hread : inputs.mapM (read MemoryStore.store) s = .ok trees s)
      (hhooks : (after (runJob id trees t own s)).ambient = s.ambient.replay hooked)
      (hs : History s log) :
      History (after (run MemoryStore.store id inputs output t own s))
        (outcome output (runJob id trees t own s) ++ (hooked ++ log))
  /-- A stage does not find all its inputs. -/
  | unread {s : StageState MemoryStore} {log : List Registration} {τ : Type}
      {t : Transform MemoryStore τ} {own : τ} {id : RunId} {inputs : List SourceId}
      {output : SourceId} {e : RunError}
      (hread : inputs.mapM (read MemoryStore.store) s = .error e s) (hs : History s log) :
      History (after (run MemoryStore.store id inputs output t own s)) log

variable {τ : Type} {s : StageState MemoryStore} {log : List Registration}

/-- A stage that reads its inputs leaves the store as its job does, with the output put there. -/
theorem ambient_run {t : Transform MemoryStore τ} {own : τ} {id : RunId} {inputs : List SourceId}
    {output : SourceId} {trees : List (SourceId × Tree)}
    (hread : inputs.mapM (read MemoryStore.store) s = .ok trees s) :
    (after (run MemoryStore.store id inputs output t own s)).ambient =
      (after (runJob id trees t own s)).ambient.replay (outcome output (runJob id trees t own s)) := by
  cases hjob : runJob id trees t own s with
  | ok o s₁ =>
    rw [run_of_runJob hread hjob]
    rfl
  | error e s₁ =>
    have hrun : run MemoryStore.store id inputs output t own s = .error e s₁ :=
      (bind_of_ok hread).trans (bind_of_error hjob)
    rw [hrun]
    rfl

theorem History.ambient_eq (hs : History s log) : s.ambient = MemoryStore.replay {} log := by
  induction hs with
  | empty => rfl
  | elsewhere _ _ ih => exact ih
  | register r _ ih => rw [MemoryStore.replay_cons, ← ih]
  | stage hread hhooks _ ih =>
    rw [ambient_run hread, hhooks, ih, MemoryStore.replay_append, MemoryStore.replay_append]
  | @unread s _ _ t own id inputs output e hread _ ih =>
    have hrun : run MemoryStore.store id inputs output t own s = .error e s := bind_of_error hread
    rw [hrun]
    exact ih

/-- Whatever was done to a store, it answers by its log. -/
theorem answersBy_of_history (hs : History s log) : s.ambient.AnswersBy log := by
  rw [hs.ambient_eq]
  exact MemoryStore.answersBy_replay log

/-- A document with one member. -/
def drafted : StageState MemoryStore :=
  ⟨{ heap := ⟨#[.object (.ofList [("a", .null)])]⟩ },
    MemoryStore.register {} (.add ⟨"d1"⟩ (.container 0))⟩

/-- It is copied by a stage, and then another document is added under the name of the copy. -/
def redrafted : StageState MemoryStore :=
  let copied := after
    (run MemoryStore.store default [⟨"d1"⟩] ⟨"o1"⟩ NodeTransform.identity.toTransform () drafted)
  { copied with ambient := copied.ambient.register (.add ⟨"o1"⟩ (.container 0)) }

/-- What was done to the store, newest first. -/
def redraftedLog : List Registration :=
  [.add ⟨"o1"⟩ (.container 0),
    .retain ⟨"o1"⟩ [{ generated := ⟨[.key "a"]⟩, origin := ⟨[.key "a"]⟩, source := ⟨"d1"⟩ }],
    .write ⟨"o1"⟩ (.container 1), .add ⟨"d1"⟩ (.container 0)]

theorem history_redrafted : History redrafted redraftedLog := by
  have hread : [⟨"d1"⟩].mapM (read MemoryStore.store) drafted =
      .ok [(⟨"d1"⟩, .container 0)] drafted := rfl
  have hhooks : (after (runJob default [(⟨"d1"⟩, .container 0)] NodeTransform.identity.toTransform ()
      drafted)).ambient = drafted.ambient.replay [] := by
    decide +kernel
  have houtcome : outcome ⟨"o1"⟩ (runJob default [(⟨"d1"⟩, .container 0)]
      NodeTransform.identity.toTransform () drafted) =
      [.retain ⟨"o1"⟩ [{ generated := ⟨[.key "a"]⟩, origin := ⟨[.key "a"]⟩, source := ⟨"d1"⟩ }],
        .write ⟨"o1"⟩ (.container 1)] := by
    decide +kernel
  have hdrafted : History drafted [.add ⟨"d1"⟩ (.container 0)] := .register _ (.empty _)
  have hcopied : History _ (outcome ⟨"o1"⟩ _ ++ _) := .stage hread hhooks hdrafted
  rw [houtcome] at hcopied
  exact .register _ hcopied

theorem answersBy_redrafted : redrafted.ambient.AnswersBy redraftedLog :=
  answersBy_of_history history_redrafted

/-- The document was added last under its name, and it is generated: what lies behind a position in it
is what lay behind that position of the document that it took the place of. -/
theorem generated_redrafted :
    History redrafted redraftedLog ∧
      redraftedLog.head? = some (.add ⟨"o1"⟩ (.container 0)) ∧
      redrafted.ambient.isGenerated ⟨"o1"⟩ = true ∧
      redrafted.ambient.behind ⟨⟨"o1"⟩, ⟨[.key "a"]⟩, none⟩ =
        .ok [⟨⟨"d1"⟩, ⟨[.key "a"]⟩, none⟩] := by
  have hanswers := MemoryStore.answersBy_replay redraftedLog
  rw [← history_redrafted.ambient_eq] at hanswers
  refine ⟨history_redrafted, rfl, (hanswers.generated _).mpr ⟨_, .tail _ (.head _)⟩, ?_⟩
  rw [hanswers.behind _ _ rfl]
  exact congrArg Except.ok (by decide +kernel)

end Lineage.Stage
