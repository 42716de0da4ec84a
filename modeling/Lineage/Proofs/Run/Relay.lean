import Lineage.Proofs.Blame.Lines
import Lineage.Proofs.Run.Completion
import Lineage.Proofs.Run.Replicas
import Lineage.Proofs.Traversal.Faithful

/-! Relays. A document is copied as it is from stage to stage. A stage maps every place that it copies to
the same place of its input, and the places below one that it does not copy, because they were withheld
or never existed, are explained by what is above them; so a place is blamed through all the stages on the
same place of the authored document. -/

namespace Lineage

/-- Mappings from places of one document to the same places explain a place by the same place. -/
theorem exists_positionsBehind_eq_same {ms : List Mapping} {source : SourceId} {p : Pointer}
    (hd : ms.Pairwise fun m n => m.generated.tokens ≠ n.generated.tokens)
    (hsame : ∀ m ∈ ms, m.origin = m.generated ∧ m.source = source ∧ m.auxiliary = none) {m : Mapping}
    (hm : m ∈ ms) (hpre : m.generated.tokens <+: p.tokens) :
    ∃ q, (q == p) = true ∧ positionsBehind ms p = [⟨source, q, none⟩] := by
  obtain ⟨u, hu⟩ := exists_positionsBehind_eq hd hm hpre
  have hmem : u ∈ positionsBehind ms p := hu ▸ List.mem_singleton_self u
  obtain ⟨n, hn, rest, htokens, hsource, haux, hpointer⟩ := exists_of_mem_positionsBehind hmem
  obtain ⟨horigin, hsource', haux'⟩ := hsame n hn
  refine ⟨u.pointer, Pointer.beq_iff.mpr ?_, ?_⟩
  · rw [hpointer, htokens, horigin]
  · rw [hu, ← hsource', ← hsource, ← haux', ← haux]

namespace Heap

variable {h : Heap} {claims : Segment → Pointer → Tree → Bool} {root : ContainerId} {out : Pruned}

/-- The heap of a copy is well formed like that of its source. -/
theorem PrunesTo.well_formed (hp : h.PrunesTo claims root out) (hi : h.Indexable) (hc : h.Closed) :
    (h.append (Container.emptyObject.extend out.members :: out.containers)).Indexable ∧
      (h.append (Container.emptyObject.extend out.members :: out.containers)).Closed := by
  obtain ⟨pass, hp⟩ := hp
  have hsize : pass.fresh ≤
      (h.append (Container.emptyObject.extend out.members :: out.containers)).size := by
    rw [hp.fresh_eq, size_append, List.length_cons]
    show h.size + 1 + out.containers.length ≤ h.size + (out.containers.length + 1)
    omega
  have htakes : Container.emptyObject.Takes out.members :=
    hp.takes (fun _ _ => rfl) (h.nodup_tokens_entries _)
  have hnew : ∀ id, h.size + 1 ≤ id → id < pass.fresh →
      (h.append (Container.emptyObject.extend out.members :: out.containers)).Has (.container id) := by
    rintro id _ hlt _ ⟨⟩
    exact Nat.lt_of_lt_of_le hlt hsize
  have hscalar : ∀ t : Tree, t.id? = none →
      (h.append (Container.emptyObject.extend out.members :: out.containers)).Has t :=
    fun t ht id hid => nomatch ht.symm.trans hid
  have hroot := forall_of_takes (c := .emptyObject) rfl htakes (hp.forall_members hscalar hnew)
  have hall : ∀ c ∈ Container.emptyObject.extend out.members :: out.containers,
      c.Indexable ∧ ∀ e ∈ c.entries,
        (h.append (Container.emptyObject.extend out.members :: out.containers)).Has e.2 :=
    List.forall_mem_cons.mpr ⟨hroot, hp.forall_containers hi hscalar hnew⟩
  exact ⟨indexable_append hi fun c hmem => (hall c hmem).1,
    closed_append hc fun c hmem => (hall c hmem).2⟩

/-- A whole copy has the members of its source at its root. -/
theorem PrunesTo.member?_root (hp : h.PrunesTo (fun _ _ _ => false) root out) {s : Segment}
    (hs : (h.member? (.container root) s).isSome) :
    ((h.append (Container.emptyObject.extend out.members :: out.containers)).member?
      (.container h.size) s).isSome := by
  obtain ⟨pass, hp⟩ := hp
  obtain ⟨v, hv⟩ := Option.isSome_iff_exists.mp hs
  obtain ⟨e, he, htoken, _⟩ := exists_entry_of_member? hv
  have hkeys : out.members.map Prod.fst = (h.entries (.container root)).map Prod.fst :=
    hp.keys_eq (fun _ _ _ => rfl) fun _ hnone => by cases hnone
  obtain ⟨m, hm, hme⟩ := List.mem_map.mp (hkeys ▸ List.mem_map_of_mem (f := Prod.fst) he)
  have htakes : Container.emptyObject.Takes out.members :=
    hp.takes (fun _ _ => rfl) (h.nodup_tokens_entries _)
  have hcopy := htakes.member?_of_mem hm
  rw [member?_container (h.holds_append _).head, ← Container.member?_congr _ htoken, ← hme, hcopy]
  rfl

end Heap

/-- The mappings of a whole copy explain what is at or below a member by the same place. -/
theorem RunOutput.Replicates.positionsBehind_eq {o : RunOutput} {h h' : Heap} {root : ContainerId}
    {source : SourceId} {out : Pruned} (ho : o.Replicates h h' root source out)
    (hp : h.PrunesTo (fun _ _ _ => false) root out) {key : Segment}
    (hkey : (h'.member? o.tree key).isSome) {p : Pointer} (hpre : [key.token] <+: p.tokens) :
    ∃ q, (q == p) = true ∧ positionsBehind o.mappings p = [⟨source, q, none⟩] := by
  have hdistinct : o.mappings.Pairwise fun m n => m.generated.tokens ≠ n.generated.tokens := by
    rw [ho.mappings, List.pairwise_map]
    refine ho.distinct.imp fun hne heq => ?_
    exact Bool.eq_false_iff.mp hne (Pointer.beq_iff.mpr heq)
  have hsame : ∀ m ∈ o.mappings, m.origin = m.generated ∧ m.source = source ∧ m.auxiliary = none := by
    intro m hm
    rw [ho.mappings] at hm
    obtain ⟨n, hn, rfl⟩ := List.mem_map.mp hm
    obtain ⟨pass, hp⟩ := hp
    have hplace := hp.generated_eq_origin (fun _ _ _ => rfl) rfl (fun _ hnone => by cases hnone) n hn
    exact ⟨hplace.symm, rfl, rfl⟩
  have hresolves : (h'.resolve? o.tree ⟨[key]⟩).isSome := by
    obtain ⟨v, hv⟩ := Option.isSome_iff_exists.mp hkey
    exact Option.isSome_iff_exists.mpr ⟨v, Option.bind_eq_some_iff.mpr ⟨v, hv, rfl⟩⟩
  obtain ⟨n, hn, hplace⟩ := ho.complete ⟨[key]⟩ rfl hresolves
  have hmapping : n.mapping source ∈ o.mappings := ho.mappings ▸ List.mem_map_of_mem hn
  have htokens : (n.mapping source).generated.tokens = [key.token] := Pointer.beq_iff.mp hplace
  exact exists_positionsBehind_eq_same hdistinct hsame hmapping (htokens ▸ hpre)

namespace Stage

/-- Copies a document from stage to stage. -/
def relay (source : SourceId) : List (RunId × SourceId) → StageM MemoryStore Unit
  | [] => pure ()
  | (id, output) :: rest => do
    discard (run MemoryStore.store id [source] output NodeTransform.identity.toTransform ())
    relay output rest

/-- The document is a container with a member under the segment. -/
structure Offers (s : StageState MemoryStore) (source : SourceId) (key : Segment) : Prop where
  indexable : s.workspace.heap.Indexable
  closed : s.workspace.heap.Closed
  tree : ∃ root, s.ambient.tree? source = some (.container root) ∧
    (s.workspace.heap.member? (.container root) key).isSome

variable {s : StageState MemoryStore} {source : SourceId} {key : Segment}

/-- A stage that copies its input offers the same member, and explains everything at or below it by the
same place of the input. -/
theorem Offers.run (hs : Offers s source key) (id : RunId) (output : SourceId) :
    ∃ o s', run MemoryStore.store id [source] output NodeTransform.identity.toTransform () s =
        .ok o s' ∧ Offers s' output key ∧
      (∀ other ≠ output, s'.ambient.document? other = s.ambient.document? other) ∧
      ∀ p : Pointer, [key.token] <+: p.tokens →
        ∃ q, (q == p) = true ∧ s'.ambient.behind ⟨output, p, none⟩ = .ok [⟨source, q, none⟩] := by
  obtain ⟨root, htree, hmember⟩ := hs.tree
  obtain ⟨v, hv⟩ := Option.isSome_iff_exists.mp hmember
  have hroot : root < s.workspace.heap.size := by
    obtain ⟨i, c, hcontainer, hc, _⟩ := Heap.get?_of_member? hv
    cases hcontainer
    exact Heap.lt_size_of_get? hc
  have hselects := NodeTransform.identity_selects (σ := MemoryStore) (τ := Unit) s.workspace.heap
  obtain ⟨out, hp, _⟩ := Heap.exists_prunesTo hs.closed (fun _ _ _ => false) root
  obtain ⟨o, j, hr, hcopy⟩ :=
    Job.result_of_selects hselects hs.indexable hs.closed hroot hp id source () s.ambient
  have hspares : (NodeTransform.identity (σ := MemoryStore) (τ := Unit)).toTransform.Spares
      fun ambient => ambient :=
    NodeTransform.spares_toTransform (Hook.spares_pure ()) (fun _ _ _ => Hook.spares_pure false)
      (Hook.spares_pure ())
  have hambient := Job.ambient_of_result hspares hr
  have hread : MemoryStore.store.getTree s.ambient source = .ok (.container root) := by
    show s.ambient.getTree source = _
    rw [MemoryStore.getTree, show (s.ambient.document? source).bind (·.tree) = _ from htree]
  refine ⟨o, _, run_of_runJob (mapM_read_singleton hread) (runJob_of_result hr), ?_, ?_, ?_⟩
  · obtain ⟨hindexable, hclosed⟩ := hp.well_formed hs.indexable hs.closed
    have hroot' := hp.member?_root hmember
    rw [← hcopy.heap] at hindexable hclosed hroot'
    refine ⟨hindexable, hclosed, s.workspace.heap.size, ?_, hroot'⟩
    rw [MemoryStore.tree?, MemoryStore.document?_output, ← hcopy.tree]
    rfl
  · intro other hne
    rw [MemoryStore.document?_of_ne _ _ _ _ hne, hambient]
  · intro p hpre
    have hroot' := hp.member?_root hmember
    rw [← hcopy.heap, ← hcopy.tree] at hroot'
    obtain ⟨q, hq, hbehind⟩ := hcopy.positionsBehind_eq hp hroot' hpre
    refine ⟨q, hq, ?_⟩
    rw [MemoryStore.behind, MemoryStore.document?_output, ← hbehind]
    rfl

/-- The stages succeed one after the other, and make the line longer document by document. -/
theorem Offers.relay {p : Pointer} (hp : [key.token] <+: p.tokens)
    (stages : List (RunId × SourceId)) {ids : List SourceId} (hs : Offers s source key)
    (hline : s.ambient.Line p (source :: ids))
    (hn : ((stages.map Prod.snd).reverse ++ source :: ids).Nodup) :
    ∃ s', Stage.relay source stages s = .ok () s' ∧
      s'.ambient.Line p ((stages.map Prod.snd).reverse ++ source :: ids) := by
  induction stages generalizing s source ids with
  | nil => exact ⟨s, rfl, hline⟩
  | cons stage rest ih =>
    obtain ⟨id, output⟩ := stage
    have hreverse : (((id, output) :: rest).map Prod.snd).reverse ++ source :: ids =
        (rest.map Prod.snd).reverse ++ output :: source :: ids := by simp
    rw [hreverse] at hn ⊢
    have hnew : output ∉ source :: ids :=
      (List.nodup_cons.mp (List.nodup_append.mp hn).2.1).1
    obtain ⟨o, s₁, hrun, hoffers, hothers, hbehind⟩ := hs.run id output
    have hold : s₁.ambient.Line p (source :: ids) :=
      hline.congr fun other hother => hothers other fun heq => hnew (heq ▸ hother)
    have hlonger : s₁.ambient.Line p (output :: source :: ids) := by
      refine .copied (fun q hq => ?_) hold
      obtain ⟨q', hq', heq⟩ := hbehind q (Pointer.beq_iff.mp hq ▸ hp)
      refine ⟨q', Pointer.beq_iff.mpr ?_, heq⟩
      rw [Pointer.beq_iff.mp hq', Pointer.beq_iff.mp hq]
    obtain ⟨s', hrest, hline'⟩ := ih hoffers hlonger hn
    have hfirst : (discard (Stage.run MemoryStore.store id [source] output
        NodeTransform.identity.toTransform ()) : StageM MemoryStore Unit) s = .ok () s₁ :=
      (bind_of_ok hrun).trans rfl
    exact ⟨s', (bind_of_ok hfirst).trans hrest, hline'⟩

/-- Whatever an authored document shares, and however many stages copy it on, a place at or below one
of its members is blamed on itself, stage by stage back to the authored document or as far as the depth
allows. The place need not exist. -/
theorem line_of_relay {w : Workspace} {ambient : MemoryStore} (hi : w.heap.Indexable)
    (hc : w.heap.Closed) {source : SourceId} {root : ContainerId}
    (htree : ambient.tree? source = some (.container root))
    (hauthored : ambient.isGenerated source = false) {key : Segment} {rest : List Segment}
    (hkey : (w.heap.member? (.container root) key).isSome) {stages : List (RunId × SourceId)}
    (hn : (source :: stages.map Prod.snd).Nodup) :
    ∃ s, relay source stages ⟨w, ambient⟩ = .ok () s ∧ ∀ config, ∃ t,
      BlameTree.trace s.ambient.behind config
        ⟨(source :: stages.map Prod.snd).getLast (List.cons_ne_nil _ _), ⟨key :: rest⟩, none⟩ = .ok t ∧
      t.Line ⟨key :: rest⟩
        ((source :: stages.map Prod.snd).reverse.take (config.maxDepth.toNat + 1)) := by
  have hoffers : Offers ⟨w, ambient⟩ source key := ⟨hi, hc, root, htree, hkey⟩
  have hstart : ambient.Line ⟨key :: rest⟩ [source] :=
    .authored fun q => MemoryStore.behind_of_authored (MemoryStore.contains_of_tree? htree) hauthored
  have hreverse : (stages.map Prod.snd).reverse ++ [source] =
      (source :: stages.map Prod.snd).reverse := List.reverse_cons.symm
  have hnodup : ((stages.map Prod.snd).reverse ++ [source]).Nodup := by
    rw [hreverse]
    exact List.nodup_reverse.mpr hn
  have hprefix : [key.token] <+: (⟨key :: rest⟩ : Pointer).tokens := ⟨rest.map Segment.token, rfl⟩
  obtain ⟨s, hrelay, hline⟩ := hoffers.relay hprefix stages hstart hnodup
  rw [hreverse] at hline hnodup
  refine ⟨s, hrelay, fun config => ?_⟩
  have hlast : (source :: stages.map Prod.snd).reverse =
      (source :: stages.map Prod.snd).getLast (List.cons_ne_nil _ _) ::
        (source :: stages.map Prod.snd).dropLast.reverse := by
    rw [← List.reverse_concat, List.dropLast_concat_getLast]
  rw [BlameTree.trace_eq]
  exact hline.resolve hlast hnodup (Pointer.beq_iff.mpr rfl) config.lenient false _
    fun _ ha => absurd ha List.not_mem_nil

/-- A store with an authored document that contains itself. -/
def looped : StageState MemoryStore :=
  ⟨{ heap := ⟨#[.object (.ofList [("next", .container 0)])]⟩ },
    MemoryStore.putTree {} ⟨"d1"⟩ (.container 0)⟩

/-- Below the place where the copies were cut off, and with one stage less than there are. -/
theorem line_of_relay_looped : ∃ s t,
    relay ⟨"d1"⟩ [(default, ⟨"o1"⟩), (default, ⟨"o2"⟩)] looped = .ok () s ∧
    BlameTree.trace s.ambient.behind { maxDepth := 1 }
      ⟨⟨"o2"⟩, ⟨[.key "next", .key "next", .key "title"]⟩, none⟩ = .ok t ∧
    t.Line ⟨[.key "next", .key "next", .key "title"]⟩ [⟨"o2"⟩, ⟨"o1"⟩] := by
  have hi : looped.workspace.heap.Indexable := by decide +kernel
  have hc : looped.workspace.heap.Closed := by decide +kernel
  have htree : looped.ambient.tree? ⟨"d1"⟩ = some (.container 0) := rfl
  have hauthored : looped.ambient.isGenerated ⟨"d1"⟩ = false := rfl
  have hkey : (looped.workspace.heap.member? (.container 0) (.key "next")).isSome := by
    decide +kernel
  have hn : (⟨"d1"⟩ :: [((default : RunId), (⟨"o1"⟩ : SourceId)), (default, ⟨"o2"⟩)].map Prod.snd).Nodup := by
    decide +kernel
  obtain ⟨s, hrelay, htraces⟩ := line_of_relay hi hc htree hauthored hkey hn
  obtain ⟨t, ht, hline⟩ := htraces { maxDepth := 1 }
  exact ⟨s, t, hrelay, ht, hline⟩

end Stage

end Lineage
