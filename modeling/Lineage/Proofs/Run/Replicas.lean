import Lineage.Proofs.Run.Gathering

/-! Jobs that copy one document. The output of a transform that only leaves nodes out is the pruned copy
of its input, and its mappings are the nodes of the walk: one for every place of the output, with the
place of the input that was copied there. -/

namespace Lineage

/-- The pruned copy of a document below its root. The walk has yielded the root, and the output root is
the first of the new containers. -/
def Heap.PrunesTo (h : Heap) (claims : Segment → Pointer → Tree → Bool) (root : ContainerId)
    (out : Pruned) : Prop :=
  ∃ pass, h.Prunes claims ⟨.root, .root, none⟩ ⟨[root], h.size + 1⟩ (h.entries (.container root)) out
    pass

/-- The copy of the document with this root: its containers are the last ones of the heap `h'`, and its
mappings go from places of the copy to places of the document. -/
structure RunOutput.Replicates (o : RunOutput) (h h' : Heap) (root : ContainerId) (source : SourceId)
    (out : Pruned) : Prop where
  tree : o.tree = .container h.size
  heap : h' = h.append (Container.emptyObject.extend out.members :: out.containers)
  mappings : o.mappings = out.nodes.map (CopiedNode.mapping source)
  copies : ∀ n ∈ out.nodes, h'.resolve? o.tree n.generated = some n.copy
  origins : ∀ n ∈ out.nodes, h.resolve? (.container root) n.origin = some n.value
  distinct : out.nodes.Pairwise fun m n => (m.generated == n.generated) = false
  complete : ∀ p : Pointer, p.isRoot = false → (h'.resolve? o.tree p).isSome →
    ∃ n ∈ out.nodes, (n.generated == p) = true

namespace Heap

variable {h : Heap} {claims : Segment → Pointer → Tree → Bool} {root : ContainerId} {out : Pruned}

theorem exists_prunesTo (hc : h.Closed) (claims : Segment → Pointer → Tree → Bool)
    (root : ContainerId) : ∃ out, h.PrunesTo claims root out ∧
      ∀ out', h.PrunesTo claims root out' → out' = out := by
  obtain ⟨out, pass, hp⟩ :=
    exists_prunes hc claims ⟨.root, .root, none⟩ ⟨[root], h.size + 1⟩ (hc.entries (.container root))
  exact ⟨out, ⟨pass, hp⟩, fun out' ⟨pass', hp'⟩ => (hp.unique hp').1⟩

theorem PrunesTo.replicates (hi : h.Indexable) (hp : h.PrunesTo claims root out)
    (source : SourceId) :
    RunOutput.Replicates ⟨.container h.size, out.nodes.map (CopiedNode.mapping source)⟩ h
      (h.append (Container.emptyObject.extend out.members :: out.containers)) root source out := by
  obtain ⟨pass, hp⟩ := hp
  have hheld := h.holds_append (Container.emptyObject.extend out.members :: out.containers)
  have htakes : Container.emptyObject.Takes out.members :=
    hp.takes (fun _ _ => rfl) (h.nodup_tokens_entries _)
  refine ⟨rfl, rfl, rfl, ?_, ?_, ?_, ?_⟩
  · refine hp.resolves hi hheld.tail rfl fun m hm => ?_
    rw [member?_container hheld.head]
    exact htakes.member?_of_mem hm
  · exact hp.origins hi rfl fun e he => member?_of_mem_entries hi he
  · refine (hp.pairwise_generated hi htakes.nodup_tokens).imp fun hne => ?_
    rw [Bool.eq_false_iff]
    exact fun heq => hne (Pointer.beq_iff.mp heq)
  · intro p hroot hsome
    obtain ⟨segments⟩ := p
    cases segments with
    | nil => cases hroot
    | cons s rest =>
      obtain ⟨v, hv⟩ := Option.isSome_iff_exists.mp hsome
      obtain ⟨u, hu, hrest⟩ := Option.bind_eq_some_iff.mp hv
      rw [member?_container hheld.head] at hu
      rcases htakes.exists_of_member? hu with hnone | ⟨m, hm, htoken, rfl⟩
      · rw [Container.member?_of_size_eq_zero rfl] at hnone
        cases hnone
      · obtain ⟨n, hn, htokens⟩ := hp.exists_node hi hheld.tail hm hrest
        refine ⟨n, hn, Pointer.beq_iff.mpr ?_⟩
        rw [htokens, htoken]
        rfl

end Heap

namespace Job

variable {σ τ : Type}

variable {t : NodeTransform σ τ} {claims : Segment → Pointer → Tree → Bool} {root : ContainerId}
  {out : Pruned}

theorem result_of_selects {w : Workspace} (ht : t.Selects w.heap claims) (hi : w.heap.Indexable)
    (hc : w.heap.Closed) (hroot : root < w.heap.size) (hp : w.heap.PrunesTo claims root out)
    (id : RunId) (source : SourceId) (own : τ) (ambient : σ) :
    ∃ o s, result t.toTransform (launch id [(source, .container root)] own ambient w) = .ok o s ∧
      o.Replicates w.heap s.workspace.heap root source out := by
  obtain ⟨pass, hprunes⟩ := hp
  have hroots : ∀ x ∈ [(source, root)], w.heap.Has (.container x.2) := by
    rintro x hx _ ⟨⟩
    exact (List.mem_singleton.mp hx) ▸ hroot
  have hids : ([(source, root)].map Prod.fst).Nodup := List.nodup_singleton source
  obtain ⟨s, hresult, hheap⟩ := result_of_prunesAll ht hi hc hids hroots (List.pairwise_singleton _ _)
    (.cons hprunes .nil) id own ambient
  simp only [List.flatMap_cons, List.flatMap_nil, List.append_nil] at hresult hheap
  have hreplica := Heap.PrunesTo.replicates hi ⟨pass, hprunes⟩ source
  rw [← hheap] at hreplica
  exact ⟨_, s, hresult, hreplica⟩

/-- A transform that leaves out what it claims, and does nothing else, succeeds over one document: its
output is the pruned copy, and its mappings are the copied nodes in the order of the walk. -/
theorem replicates_of_result {w : Workspace} (ht : t.Selects w.heap claims) (hi : w.heap.Indexable)
    (hc : w.heap.Closed) (hroot : root < w.heap.size) (id : RunId) (source : SourceId) (own : τ)
    (ambient : σ) :
    ∃ out, w.heap.PrunesTo claims root out ∧
      (∀ out', w.heap.PrunesTo claims root out' → out' = out) ∧
      ∃ o s, result t.toTransform (launch id [(source, .container root)] own ambient w) = .ok o s ∧
        o.Replicates w.heap s.workspace.heap root source out := by
  obtain ⟨out, hp, hunique⟩ := Heap.exists_prunesTo hc claims root
  exact ⟨out, hp, hunique, result_of_selects ht hi hc hroot hp id source own ambient⟩

/-- Leaves out the first item of a list. -/
def beheading : NodeTransform Unit Unit where
  claim _ _ n := pure (n.pointer == ⟨[.key "list", .index 0]⟩)

theorem beheading_selects (h : Heap) :
    beheading.Selects h fun _ p _ => p == ⟨[.key "list", .index 0]⟩ :=
  ⟨fun s _ => ⟨s, rfl, rfl⟩, fun s _ _ _ _ _ => ⟨s, rfl, rfl⟩, fun s _ => ⟨s, rfl, rfl⟩⟩

/-- A document that contains itself, and a list twice, the last items of which are one object. -/
def knot : Heap :=
  ⟨#[.object (.ofList [("list", .container 1), ("same", .container 1), ("self", .container 0)]),
    .array [.null, .container 2, .container 2], .object (.ofList [("up", .container 1)])]⟩

theorem replicates_knot : ∃ out o s,
    result beheading.toTransform
      (launch default [(⟨"d1"⟩, .container 0)] () () { heap := knot }) = .ok o s ∧
    o.mappings.map (fun m => (m.generated.render, m.origin.render)) =
      [("/list", "/list"), ("/list/0", "/list/1"), ("/list/0/up", "/list/1/up"),
        ("/list/1", "/list/2"), ("/same", "/same"), ("/self", "/self")] ∧
    o.Replicates knot s.workspace.heap 0 ⟨"d1"⟩ out := by
  have hpairs : (match result beheading.toTransform
      (launch default [(⟨"d1"⟩, .container 0)] () () { heap := knot }) with
      | .ok o _ => o.mappings.map fun m => (m.generated.render, m.origin.render)
      | .error _ _ => []) =
      [("/list", "/list"), ("/list/0", "/list/1"), ("/list/0/up", "/list/1/up"),
        ("/list/1", "/list/2"), ("/same", "/same"), ("/self", "/self")] := by
    decide +kernel
  have hi : knot.Indexable := by decide +kernel
  have hc : knot.Closed := by decide +kernel
  obtain ⟨out, _, _, o, s, hr, hreplica⟩ := replicates_of_result (w := { heap := knot })
    (beheading_selects knot) hi hc (show (0 : ContainerId) < knot.size by decide) default ⟨"d1"⟩ () ()
  rw [hr] at hpairs
  exact ⟨out, o, s, hr, hpairs, hreplica⟩

end Job

end Lineage
