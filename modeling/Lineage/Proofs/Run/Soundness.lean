import Lineage.Proofs.Run.Accounting
import Lineage.Proofs.Run.Steps

/-! Runs stay sound. In a sound state the registry agrees with the output, the mappings account for
it, and every proxy that was handed out stands for a container of the run at its own place. Each step
keeps this, whether what it tries is refused or not, and so does every sequence of steps. -/

namespace Lineage

namespace RunState

structure Sound (s : RunState) : Prop where
  placed : s.Placed
  accounted : s.Accounted

/-- The proxy stands for a container of the run where it was allocated, and writes to the table of
the run. -/
def Owns (s : RunState) (p : Proxy) : Prop :=
  s.AllocatedAt p.backing p.location.tokens ∧ p.sink.table = s.run.table

/-- The second state is sound and owns what the first one does. -/
def Keeps (s s' : RunState) : Prop := s'.Sound ∧ ∀ p, s.Owns p → s'.Owns p

variable {s s' s'' : RunState} {p : Proxy}

theorem Owns.genuine (ho : s.Owns p) : s.Genuine p :=
  fun q hq => ⟨ho.1.path_eq ⟨q, hq, rfl⟩, ho.2⟩

theorem Genuine.owns (hg : s.Genuine p) {q : Pointer}
    (hq : s.run.registry.get? p.backing = some q) : s.Owns p :=
  ⟨⟨q, hq, (hg q hq).1.symm⟩, (hg q hq).2⟩

theorem Keeps.trans (h₁ : s.Keeps s') (h₂ : s'.Keeps s'') : s.Keeps s'' :=
  ⟨h₂.1, fun p ho => h₂.2 p (h₁.2 p ho)⟩

/-- What only adds containers keeps a run sound. -/
theorem Sound.grows (hs : s.Sound) (hreg : s'.run.registry = s.run.registry)
    (hroot : s'.run.root = s.run.root) (htable : s'.run.table = s.run.table)
    (hmap : s'.mappings = s.mappings) (hg : s.workspace.heap.Grows s'.workspace.heap)
    (hi : s'.workspace.heap.Indexable) : s.Keeps s' := by
  refine ⟨⟨?_, ?_⟩, fun p ho => ?_⟩
  · exact hs.placed.extends hreg hroot hg.extends hg.1 hi
  · exact hs.accounted.grows hs.placed hreg hroot hmap hg
  · simpa only [Owns, AllocatedAt, hreg, htable] using ho

theorem Sound.withHeap (hs : s.Sound) {heap : Heap} (hg : s.workspace.heap.Grows heap)
    (hi : heap.Indexable) : s.Keeps (s.withHeap heap) :=
  hs.grows rfl rfl rfl rfl hg hi

theorem Sound.written (hs : s.Sound) {key : Segment} {write : TaggedWrite}
    {origin : Pointer} {c c' : Container} (ho : s.Owns p)
    (hacc : Accepts s p key write origin c c') : s.Keeps (s.written p key write origin c') :=
  ⟨⟨hs.placed.written hacc, hs.accounted.written hs.placed ho.1 ho.2 hacc⟩, fun _ ho' => ho'⟩

theorem Sound.allocated (hs : s.Sound) {c : Container} (hc : c.Indexable) :
    s.Keeps (Run.allocated s c) :=
  hs.withHeap (Heap.grows_alloc _ c) (hs.placed.indexable.alloc hc)

/-- A new container is not one that the run registered before. -/
theorem Placed.get?_size (hs : s.Placed) : s.run.registry.get? s.workspace.heap.size = none := by
  rw [Option.eq_none_iff_forall_ne_some]
  intro q hq
  exact Nat.lt_irrefl _ (hs.lt_size _ q.tokens ⟨q, hq, rfl⟩)

section New

variable {c d d' : Container} {key : Segment} {write : TaggedWrite} {origin : Pointer}

/-- A new container has no members when it is written somewhere else. -/
theorem memberAt_new (hs : s.Sound) (hc : c.size = 0) (ho : s.Owns p)
    (hacc : Accepts (Run.allocated s c) p key write origin d d') (name : String) :
    ((Run.allocated s c).written p key write origin d').memberAt s.workspace.heap.size name =
      none := by
  have hne := ho.1.ne hs.placed.get?_size
  have hnew : (Run.allocated s c).workspace.heap.get? s.workspace.heap.size = some c := by
    simp [Run.allocated]
  rw [memberAt_written hacc, if_neg fun hh => hne hh.1.symm]
  exact (Heap.member?_container hnew (.key name)).trans (Container.member?_of_size_eq_zero hc _)

/-- The mapping of a written place is the only one that speaks of it or of anything below, unless the
write is recursive. -/
theorem rest_eq_nil_of_written (hs : s.Sound) (ho : s.Owns p) (hrec : write.recurse = false)
    (hacc : Accepts s p key write origin d d') {m : Mapping}
    (hm : m ∈ (s.written p key write origin d').mappings) {rest : List String}
    (htok : m.generated.tokens = p.location.tokens ++ [key.token] ++ rest) : rest = [] := by
  have hsilent := (hs.accounted.vacant hs.placed ho.1 (memberAt_eq_none_of_accepts hacc)).2
  rw [mappings_written ho.2 hacc, Proxy.mappingsOf_of_not_recurse _ _ _ _ _ hrec] at hm
  rw [List.append_assoc, List.singleton_append] at htok
  rcases List.mem_append.mp hm with hm | hm
  · exact absurd htok (hsilent m hm rest)
  · rw [List.mem_singleton.mp hm, Proxy.tokens_topMapping] at htok
    simpa using htok.symm

/-- A new container without members may be registered once it is written where `p` has the key. -/
theorem Sound.registered (hs : s.Sound) (hc : c.size = 0) (ho : s.Owns p)
    (hrec : write.recurse = false) (hval : write.value = .container s.workspace.heap.size)
    (hacc : Accepts (Run.allocated s c) p key write origin d d') {q : Pointer}
    (hq : q.tokens = p.location.tokens ++ [key.token]) :
    s.Keeps (((Run.allocated s c).written p key write origin d').registered
      s.workspace.heap.size q) := by
  obtain ⟨hs₁, hown₁⟩ := hs.allocated (Container.indexable_of_size_eq_zero hc)
  have hs₂ := (hs₁.written (hown₁ p ho) hacc).1
  have hfree := hs.placed.get?_size
  have hnone := (hs₁.accounted.vacant hs₁.placed ho.1 (memberAt_eq_none_of_accepts hacc)).1
  refine ⟨⟨?_, ?_⟩, fun r hr => ⟨?_, hr.2⟩⟩
  · refine hs₂.placed.registered hfree ?_ ho.1 ?_ hq fun i => hnone i []
    · rw [size_written, Run.size_allocated]
      exact Nat.lt_succ_self _
    · rw [memberAt_written hacc, if_pos ⟨rfl, rfl⟩, hval]
  · exact hs₂.accounted.registered hfree hq (memberAt_new hs hc ho hacc)
      fun m hm rest htok => rest_eq_nil_of_written hs₁ (hown₁ p ho) hrec hacc hm htok
  · rw [allocatedAt_registered, if_neg (hr.1.ne hfree)]
    exact hr.1

end New

/-- No operation through a genuine proxy makes a run unsound. -/
theorem Sound.keeps_of_effect (hs : s.Sound) {isDirect : Bool} (hg : s.Genuine p)
    (hd : isDirect = true → s.Owns p) (heff : Effect s p isDirect s') : s.Keeps s' := by
  cases heff with
  | grown hgrows hi => exact hs.withHeap hgrows (hi hs.placed.indexable)
  | written hgrows hi hacc hreg =>
    have hk := hs.withHeap hgrows (hi hs.placed.indexable)
    have ho : s.Owns p := hreg.elim hd fun ⟨q, hq⟩ => hg.owns hq
    exact hk.trans (hk.1.written (hk.2 p ho) hacc)
  | allocated c hc hrec hval hacc hreg =>
    refine hs.registered hc (hg.owns hreg) hrec hval hacc ?_
    rw [Pointer.tokens_append, (hg _ hreg).1]

/-- What an operation answers with is owned. -/
theorem Genuine.owns_of_answers (hg : s.Genuine p) (htable : s'.run.table = s.run.table) {q : Proxy}
    (ha : Answers s p s' q) : s'.Owns q := by
  obtain ⟨key, id, q', r, rfl, hq', hr, htok⟩ := ha
  obtain ⟨hlocation, hsink⟩ := hg q' hq'
  refine ⟨⟨r, hr, ?_⟩, hsink.trans htable.symm⟩
  rw [htok, Proxy.tokens_location_child, hlocation]

end RunState

namespace Progress

open RunState

/-- The run is sound and owns every proxy that it has handed out. -/
structure Sound (p : Progress) : Prop where
  state : p.state.Sound
  owns : ∀ q ∈ p.issued, p.state.Owns q

theorem Sound.keeps {p : Progress} (hp : p.Sound) {s : RunState} (hk : p.state.Keeps s) :
    Sound ⟨s, p.issued⟩ :=
  ⟨hk.1, fun q hq => hk.2 q (hp.owns q hq)⟩

theorem Sound.genuine {p : Progress} (hp : p.Sound) {a : Action} (ha : p.Admits a) :
    p.state.Genuine a.target :=
  ha.elim (fun hi => (hp.owns _ hi).genuine) fun h => h.2

theorem Sound.owns_of_isDirect {p : Progress} (hp : p.Sound) {a : Action} (ha : p.Admits a)
    (hdirect : a.isDirect = true) : p.state.Owns a.target := by
  rcases ha with hi | ⟨hnot, _⟩
  · exact hp.owns _ hi
  · rw [hdirect] at hnot
    cases hnot

theorem Sound.perform {p : Progress} (hp : p.Sound) {a : Action} (ha : p.Admits a) :
    (p.perform a).Sound := by
  have hg := hp.genuine ha
  have heff := p.effect_perform a
  have hk := hp.state.keeps_of_effect hg (hp.owns_of_isDirect ha) heff
  refine ⟨hk.1, fun q hq => ?_⟩
  rcases mem_issued_perform hq with hq | hanswer
  · exact hk.2 q (hp.owns q hq)
  · exact hg.owns_of_answers heff.table_eq hanswer

/-- What one step keeps. -/
theorem Sound.step {p p' : Progress} (hp : p.Sound) (hstep : Run.Step p p') : p'.Sound := by
  cases hstep with
  | act a ha => exact hp.perform ha
  | grow heap hg hi => exact hp.keeps (hp.state.withHeap hg hi)
  | aside w hh ht =>
    refine hp.keeps (hp.state.grows rfl rfl rfl ?_ ?_ ?_)
    · simp only [mappings, Workspace.tableEntries, ht]
    · simp only [hh]
      exact .refl _
    · simp only [hh]
      exact hp.state.placed.indexable
  | turn current =>
    exact hp.keeps (hp.state.grows rfl rfl rfl rfl (.refl _) hp.state.placed.indexable)

/-- What a run keeps, from step to step. -/
theorem Sound.steps {p p' : Progress} (hp : p.Sound) (hsteps : Run.Steps p p') : p'.Sound := by
  induction hsteps with
  | refl => exact hp
  | tail _ hstep ih => exact ih.step hstep

end Progress

end Lineage
