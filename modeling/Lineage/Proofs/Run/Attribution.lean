import Lineage.Proofs.Output.Leaves
import Lineage.Proofs.Run.Descent
import Lineage.Proofs.Run.Requests

/-! Which source a mapping names. What the run writes for a hook names the source that the write names, or
the input whose hook is running, or the source of the proxy. What goes straight to a proxy names the source
of the write or that of the proxy. The output root has the first source that was supplied, and whatever
descends from it has it too, whichever input was processed when it was allocated or reopened.
-/

namespace Lineage

open Progress RunState

/-- The first source that is supplied, or the run itself where none is. -/
def RunId.firstSource (id : RunId) : List (SourceId × Tree) → SourceId
  | (first, _) :: _ => first
  | [] => ⟨"run:" ++ id.render⟩

namespace Action

/-- The source that a write names. -/
def named : Action → Option SourceId
  | write _ _ w | put _ _ (.tagged w) | push _ (.tagged w) => w.source
  | _ => none

/-- The source of what an action records while an input, or none, is current. -/
def attribution (a : Action) (current : Option SourceId) : SourceId :=
  a.named.getD (if a.isDirect then a.target.source else current.getD a.target.source)

end Action

theorem Proxy.source_of_mem_mappingsOf {p : Proxy} {key : Segment} {write : TaggedWrite}
    {origin : Pointer} {h : Heap} {m : Mapping} (hm : m ∈ p.mappingsOf key write origin h) :
    m.source = write.source.getD p.source := by
  rcases p.mem_mappingsOf key write origin h hm with rfl | ⟨_, _, _, _, _, rfl⟩
  · rfl
  · rfl

namespace RunState

/-- The table that `p` delivers to has gained mappings and no other table has changed. -/
structure Gains (s : RunState) (p : Proxy) (ms : List Mapping) (s' : RunState) : Prop where
  gained : s'.workspace.tableEntries p.sink.table = s.workspace.tableEntries p.sink.table ++ ms
  spared : ∀ id, id ≠ p.sink.table → s'.workspace.table? id = s.workspace.table? id

/-- Whatever mappings `p` has delivered, they name the source. -/
def Credits (s : RunState) (p : Proxy) (source : SourceId) (s' : RunState) : Prop :=
  ∃ ms, s.Gains p ms s' ∧ ∀ m ∈ ms, m.source = source

variable {s s' : RunState} {p : Proxy} {source : SourceId}

theorem credits_withHeap (s : RunState) (p : Proxy) (source : SourceId) (heap : Heap) :
    s.Credits p source (s.withHeap heap) :=
  ⟨[], ⟨(List.append_nil _).symm, fun _ _ => rfl⟩, nofun⟩

theorem credits_self (s : RunState) (p : Proxy) (source : SourceId) : s.Credits p source s :=
  s.credits_withHeap p source s.workspace.heap

theorem Credits.of_withHeap {heap : Heap} (h : (s.withHeap heap).Credits p source s') :
    s.Credits p source s' := by
  obtain ⟨ms, hgains, hsource⟩ := h
  exact ⟨ms, ⟨hgains.gained, hgains.spared⟩, hsource⟩

theorem Credits.registered (h : s.Credits p source s') (id : ContainerId) (q : Pointer) :
    s.Credits p source (s'.registered id q) := by
  obtain ⟨ms, hgains, hsource⟩ := h
  exact ⟨ms, ⟨hgains.gained, hgains.spared⟩, hsource⟩

/-- All mappings of a write name one source, those of leaves too. -/
theorem credits_written {key : Segment} {write : TaggedWrite} {origin : Pointer} {c c' : Container}
    (hacc : Accepts s p key write origin c c') :
    s.Credits p (write.source.getD p.source) (s.written p key write origin c') :=
  ⟨_, ⟨tableEntries_written hacc, fun _ hne => table?_written_of_ne hne⟩, fun _ hm =>
    Proxy.source_of_mem_mappingsOf hm⟩

end RunState

namespace Run

variable (s : RunState) (p : Proxy) (key : Segment)

theorem credits_put (a : Assignment) {source : SourceId}
    (hsource : ∀ w, a = .tagged w → w.source.getD p.source = source) :
    s.Credits p source (after (liftWrite (p.put key a) s)) := by
  rcases liftWrite_put_cases s p key a with ⟨e, he⟩ | ⟨w, origin, c, c', ha, hacc, hok⟩
  · rw [he]
    exact credits_self s p _
  · rw [hok, ← hsource w ha]
    exact credits_written hacc

theorem credits_write (w : TaggedWrite) :
    s.Credits p (w.source.getD (s.run.current.getD p.source)) (after (write p key w s)) := by
  rw [← Option.getD_or]
  rcases write_cases s p key w with ⟨e, he⟩ | ⟨q, origin, c, c', _, hacc, hok⟩
  · rw [he]
    exact credits_self s p _
  · rw [hok]
    exact credits_written hacc

theorem credits_allocate (c : Container) (origin : Pointer) :
    s.Credits p (s.run.current.getD p.source) (after (allocate c p key origin s)) := by
  rcases allocate_cases s c p key origin with
    ⟨e, he⟩ | ⟨e, he⟩ | ⟨q, w, o, d, d', hq, _, hvalue, hacc, _⟩
  · rw [he]
    exact credits_self s p _
  · rw [he]
    exact s.credits_withHeap p _ _
  · -- the write of an allocation names no source of its own
    have hadd := hacc.add
    rw [hvalue] at hadd
    have hown : Accepts (allocated s c) p key (attributed s
        { value := .container s.workspace.heap.size, origin := some origin }) origin d d' :=
      ⟨rfl, hacc.accepts, hacc.backing, hadd⟩
    rw [allocate_of_accepts s hq hown]
    exact (credits_written hown).of_withHeap.registered _ _

theorem credits_reopenOrAllocate (c : Container) (origin : Pointer) :
    s.Credits p (s.run.current.getD p.source) (after (reopenOrAllocate c p key origin s)) := by
  rcases reopenOrAllocate_cases s c p key origin with heq | ⟨e, he⟩ | ⟨_, _, _, _, _, _, hok⟩
  · rw [heq]
    exact credits_allocate s p key c origin
  · rw [he]
    exact credits_self s p _
  · rw [hok]
    exact credits_self s p _

end Run

namespace Progress

/-- In whatever state, through whatever proxy: an action records mappings of its own source. -/
theorem credits_perform (p : Progress) (a : Action) :
    p.state.Credits a.target (a.attribution p.state.run.current) (p.perform a).state := by
  cases a with
  | write t key w => exact Run.credits_write p.state t key w
  | place t key origin v recurse => exact Run.credits_write p.state t key _
  | placeCopy t key origin v recurse =>
    exact (Run.credits_write (Run.duplicated p.state v) t key _).of_withHeap
  | allocateObject t key origin | allocateArray t key origin =>
    rw [perform, state_issue]
    exact Run.credits_allocate p.state t key _ origin
  | openObject t key origin | openArray t key origin =>
    rw [perform, state_issue]
    exact Run.credits_reopenOrAllocate p.state t key _ origin
  | put t key a =>
    refine Run.credits_put p.state t key a fun w ha => ?_
    rw [ha]
    rfl
  | push t a =>
    refine Run.credits_put p.state t _ a fun w ha => ?_
    rw [ha]
    rfl

/-- The output root and all proxies that have been handed out have one source. -/
structure Sourced (source : SourceId) (p : Progress) : Prop where
  root : p.state.run.root.source = source
  issued : ∀ q ∈ p.issued, q.source = source

variable {p p' : Progress} {source : SourceId}

/-- What the run answers to a proxy has the source of that proxy. -/
theorem Sourced.perform (hp : p.Sourced source) {a : Action} (ha : p.Descends a) :
    (p.perform a).Sourced source := by
  refine ⟨?_, fun q hq => ?_⟩
  · rw [(p.effect_perform a).root_eq]
    exact hp.root
  · rcases mem_issued_perform hq with hq | ⟨key, id, _, _, rfl, _⟩
    · exact hp.issued q hq
    · exact hp.issued a.target ha

theorem Sourced.events (hp : p.Sourced source) (hevents : Run.Events Descends Continues p p') :
    p'.Sourced source := by
  refine hevents.keeps (fun _ a hq ha => hq.perform ha) (fun s s' issued hq hc => ?_) hp
  refine ⟨?_, hq.issued⟩
  rw [hc.start.root_eq]
  exact hq.root

theorem sourced_initial (id : RunId) (inputs : List (SourceId × Tree)) (w : Workspace) :
    (Progress.initial id inputs w).Sourced (id.firstSource inputs) := by
  have hroot : (Run.start id inputs w).run.root.source = id.firstSource inputs := by
    change Run.defaultSource id (OrderedMap.ofList inputs) = _
    rw [Run.defaultSource, OrderedMap.keys_ofList]
    cases inputs <;> rfl
  refine ⟨hroot, fun q hq => ?_⟩
  rw [List.mem_singleton.mp hq]
  exact hroot

end Progress

section Calls

variable {σ τ : Type}

namespace HookCall

/-- The input that is current while the hook runs. -/
def source? : HookCall → Option SourceId
  | process source _ => some source
  | prepare | conclude => none

/-- The state in which the hook starts. -/
def entered : HookCall → HookState σ τ → HookState σ τ
  | prepare, h => h
  | process source tree, h => Job.turned h source tree
  | conclude, h => { h with run := { h.run with current := none } }

theorem continues_entered (call : HookCall) (h : HookState σ τ) :
    h.runState.Continues (call.entered h).runState := by
  cases call <;> exact continues_of_registry_eq ⟨rfl, rfl, rfl⟩ rfl (Nat.le_refl _)

/-- No call comes before that which prepares. -/
theorem eq_nil_of_schedule {inputs : List (SourceId × Tree)} {made rest : List HookCall}
    (hsplit : schedule inputs = made ++ prepare :: rest) : made = [] := by
  cases made with
  | nil => rfl
  | cons first made =>
    have htail := (List.cons.inj hsplit).2
    have hmem : prepare ∈ (OrderedMap.lastByKey inputs).map ofInput ++ [conclude] := by
      rw [htail]
      exact List.mem_append_right _ List.mem_cons_self
    simp [ofInput] at hmem

end HookCall

/-- Within a hook the run goes on, and the current input stays what it is. -/
structure RunState.Lingers (s s' : RunState) : Prop where
  continues : s.Continues s'
  current_eq : s'.run.current = s.run.current

namespace Job

variable {t : Transform σ τ} {id : RunId} {inputs : List (SourceId × Tree)} {own : τ} {ambient : σ}
  {w : Workspace} {call : HookCall} {p : Progress}

/-- Where a new job may have got to while a hook is running: the calls before it have been made, whatever
was done in them, and the hook has done whatever it may do. -/
inductive During (t : Transform σ τ) (id : RunId) (inputs : List (SourceId × Tree)) (own : τ)
    (ambient : σ) (w : Workspace) (call : HookCall) (p : Progress) : Prop
  | intro {made rest : List HookCall} {h : HookState σ τ} {issued : List Proxy}
    (hsplit : HookCall.schedule inputs = made ++ call :: rest)
    (hmade : Completes t made (launch id inputs own ambient w).hookState h)
    (hbefore : Run.Events Descends Continues (.initial id inputs w) ⟨h.runState, issued⟩)
    (hwithin : Run.Events Descends Lingers ⟨(call.entered h).runState, issued⟩ p)

theorem current_entered {made rest : List HookCall} {h : HookState σ τ}
    (hsplit : HookCall.schedule inputs = made ++ call :: rest)
    (hmade : Completes t made (launch id inputs own ambient w).hookState h) :
    (call.entered h).run.current = call.source? := by
  cases call with
  | prepare =>
    rw [HookCall.eq_nil_of_schedule hsplit] at hmade
    cases hmade
    rfl
  | process source tree => rfl
  | conclude => rfl

theorem current_of_within {q : Progress} (hwithin : Run.Events Descends Lingers q p) :
    p.state.run.current = q.state.run.current := by
  refine hwithin.keeps (I := fun r => r.state.run.current = q.state.run.current) ?_ ?_ rfl
  · intro r a hr _
    rw [(r.effect_perform a).current_eq, hr]
  · intro s s' issued hs hlingers
    rw [hlingers.current_eq, hs]

theorem During.current_eq (hp : During t id inputs own ambient w call p) :
    p.state.run.current = call.source? := by
  obtain ⟨hsplit, hmade, _, hwithin⟩ := hp
  rw [current_of_within hwithin]
  exact current_entered hsplit hmade

/-- All that has been done to the run so far. -/
theorem During.events (hp : During t id inputs own ambient w call p) :
    Run.Events Descends Continues (.initial id inputs w) p := by
  obtain ⟨_, _, hbefore, hwithin⟩ := hp
  exact (hbefore.tail (.beside (call.continues_entered _))).trans
    (hwithin.mono_beside fun hlingers => hlingers.continues)

/-- Whatever is done while a hook is running, and through whatever proxy. The run writes in the name of
the source that the write names, else of the input whose hook is running, else of the proxy; a direct write
is in the name of the source that it names, else of the proxy. For the output root and for whatever has been
handed out, this is the first source that was supplied. -/
theorem attributed_of_during (hp : During t id inputs own ambient w call p) (a : Action) :
    (∃ ms, p.state.Gains a.target ms (p.perform a).state ∧
      (a.isDirect = false → ∀ m ∈ ms, m.source = a.named.getD (call.source?.getD a.target.source)) ∧
      (a.isDirect = true → ∀ m ∈ ms, m.source = a.named.getD a.target.source)) ∧
    (a.target = p.state.run.root ∨ a.target ∈ p.issued → a.target.source = id.firstSource inputs) := by
  obtain ⟨ms, hgains, hsource⟩ := p.credits_perform a
  rw [hp.current_eq] at hsource
  have hsourced := (sourced_initial id inputs w).events hp.events
  refine ⟨⟨ms, hgains, fun hdirect m hm => ?_, fun hdirect m hm => ?_⟩, ?_⟩
  · rw [hsource m hm, Action.attribution, hdirect, if_neg Bool.false_ne_true]
  · rw [hsource m hm, Action.attribution, hdirect, if_pos rfl]
  · rintro (hroot | hissued)
    · rw [hroot]
      exact hsourced.root
    · exact hsourced.issued _ hissued

end Job

end Calls

namespace Job

/-- Asks for an object that all inputs share. -/
def share (root : Proxy) : Action := .openObject root (.key "shared") .root

/-- Asks for the shared object with each input. -/
def sharing : Transform Unit Unit where
  process root _ _ := Hook.carryOut (share root)

def bothInputs : List (SourceId × Tree) := [(⟨"a"⟩, .null), (⟨"b"⟩, .null)]

/-- The first input is processed. -/
def allocating : Progress :=
  let h := (launch default bothInputs () () {} : JobState Unit Unit).hookState
  let p : Progress := ⟨((HookCall.process ⟨"a"⟩ .null).entered h).runState, [h.run.root]⟩
  p.perform (share h.run.root)

/-- The object that was allocated with the first input is reopened with the second one. -/
def reopening : Progress :=
  let s := allocating.state
  let p : Progress :=
    ⟨{ s with
        workspace := (s.workspace.visit .null).2
        run := { s.run with current := some ⟨"b"⟩ } }, allocating.issued⟩
  p.perform (share s.run.root)

theorem during_reopening :
    During sharing default bothInputs () () {} (.process ⟨"b"⟩ .null) reopening := by
  let first : HookCall := .process ⟨"a"⟩ .null
  let h := (launch default bothInputs () () {} : JobState Unit Unit).hookState
  let h' := after (first.run sharing h)
  have hmade : Completes sharing [.prepare, first] h h' := .cons rfl (.cons rfl .nil)
  have hturned : Run.Events Descends Continues (.initial default bothInputs {})
      ⟨(first.entered h).runState, [h.run.root]⟩ := .single (.beside (first.continues_entered h))
  have hbefore : Run.Events Descends Continues (.initial default bothInputs {})
      ⟨h'.runState, allocating.issued⟩ := hturned.tail (.act (share h.run.root) (by decide +kernel))
  exact ⟨rfl, hmade, hbefore, .single (.act (share h.run.root) (by decide +kernel))⟩

/-- The run writes for the second input, and what goes straight to the object is still of the first. -/
theorem attributed_reopening :
    let child := allocating.state.run.root.child (.key "shared") 1
    let helper : Action := .place child (.key "x") .root .null false
    let direct : Action := .put child (.key "y") (.tagged { value := .null, origin := some .root })
    (∃ ms, reopening.state.Gains child ms (reopening.perform helper).state ∧ ms ≠ [] ∧
      ∀ m ∈ ms, m.source = ⟨"b"⟩) ∧
    ∃ ms, reopening.state.Gains child ms (reopening.perform direct).state ∧ ms ≠ [] ∧
      ∀ m ∈ ms, m.source = ⟨"a"⟩ := by
  intro child helper direct
  have hnonempty (a : Action) (ms : List Mapping) (hgains : reopening.state.Gains child ms
      (reopening.perform a).state)
      (hafter : ((reopening.perform a).state.workspace.tableEntries child.sink.table).length = 2) :
      ms ≠ [] := by
    rintro rfl
    have hbefore : (reopening.state.workspace.tableEntries child.sink.table).length = 1 := by
      decide +kernel
    rw [hgains.gained, List.append_nil, hbefore] at hafter
    cases hafter
  constructor
  · obtain ⟨⟨ms, hgains, hsource, _⟩, _⟩ := attributed_of_during during_reopening helper
    exact ⟨ms, hgains, hnonempty helper ms hgains (by decide +kernel), hsource rfl⟩
  · obtain ⟨⟨ms, hgains, _, hsource⟩, hfirst⟩ := attributed_of_during during_reopening direct
    have hissued : direct.target ∈ reopening.issued := by decide +kernel
    refine ⟨ms, hgains, hnonempty direct ms hgains (by decide +kernel), fun m hm => ?_⟩
    exact (hsource rfl m hm).trans (hfirst (.inr hissued))

/-- A proxy over the output root that names a source of its own and delivers to the other table. -/
def disguised : Proxy := { Run.forged with source := ⟨"elsewhere"⟩ }

/-- Before the inputs, the run writes through it in the name of that source, and so does whatever the run
hands out for it. -/
theorem not_attributed_disguised :
    let p : Progress := .initial default [(⟨"a"⟩, .null)] Run.customs
    let helper : Action := .place disguised (.key "x") .root .null false
    let q := p.perform (.allocateObject disguised (.key "y") .root)
    let child := disguised.child (.key "y") 1
    let direct : Action := .put child (.key "z") (.tagged { value := .null, origin := some .root })
    p.state.run.current = none ∧ helper.named = none ∧ direct.named = none ∧ child ∈ q.issued ∧
      ((p.perform helper).state.workspace.tableEntries 0).map (·.source) = [⟨"elsewhere"⟩] ∧
      ((q.perform direct).state.workspace.tableEntries 0).map (·.source) =
        [⟨"elsewhere"⟩, ⟨"elsewhere"⟩] := by
  decide +kernel

end Job

end Lineage
