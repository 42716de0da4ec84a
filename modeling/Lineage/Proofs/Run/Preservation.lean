import Lineage.Json.Printer
import Lineage.Proofs.Run.Replicas
import Lineage.Proofs.Traversal.Whole

/-! What survives when a document is copied as it is. -/

namespace Lineage

variable {root : ContainerId} {j : Json}

/-- The whole copy of a document is written down like the document exactly when no container with
members stands at two places. -/
theorem Heap.PrunesTo.toJson?_copy_iff {h : Heap} {out : Pruned} (hi : h.Indexable)
    (hp : h.PrunesTo (fun _ _ _ => false) root out) (hobject : h.isArray (.container root) = false)
    (hj : h.toJson? (.container root) = some j) :
    (h.append (Container.emptyObject.extend out.members :: out.containers)).toJson?
      (.container h.size) = some j ↔ h.Unshared (.container root) := by
  obtain ⟨pass, hp⟩ := hp
  have hheld := h.holds_append (Container.emptyObject.extend out.members :: out.containers)
  have hcopied : (h.append (Container.emptyObject.extend out.members :: out.containers)).get?
      h.size = some ((Container.emptyOf false).extend out.members) := hheld.head
  have htakes : Container.emptyObject.Takes out.members :=
    hp.takes (fun _ _ => rfl) (h.nodup_tokens_entries _)
  have horder : InOrder none (h.entries (.container root)) := fun _ hnone => by cases hnone
  obtain ⟨vs, hvs, rfl⟩ := unfolds_container_iff.mp (toJson?_eq_some_iff.mp hj)
  obtain ⟨nodes, hen, hall⟩ := hp.enumerates hi (fun _ _ _ => rfl) hheld.tail
  have htokens := hp.tokens_eq (fun _ _ _ => rfl) horder hvs
  rw [unshared_iff hi, hen.descendants_eq, ← forall_length_iff hall,
    ← hp.unfoldsAll_iff hi (fun _ _ _ => rfl) hheld.tail horder hvs, toJson?_eq_some_iff, hobject,
    unfolds_copy_iff hcopied htakes htokens]

namespace Job

variable {σ τ : Type}

/-- Copying a document as it is succeeds, whatever it shares. It preserves the document exactly when no
container with members stands at two places. -/
theorem preserves_iff_unshared {w : Workspace} (hi : w.heap.Indexable) (hc : w.heap.Closed)
    (hroot : root < w.heap.size) (hobject : w.heap.isArray (.container root) = false)
    (hj : w.heap.toJson? (.container root) = some j) (id : RunId) (source : SourceId) (own : τ)
    (ambient : σ) :
    ∃ o s, result NodeTransform.identity.toTransform
        (launch id [(source, .container root)] own ambient w) = .ok o s ∧
      (s.workspace.heap.toJson? o.tree = some j ↔ w.heap.Unshared (.container root)) := by
  obtain ⟨out, hp, _⟩ := Heap.exists_prunesTo hc (fun _ _ _ => false) root
  obtain ⟨o, s, hresult, hreplica⟩ := result_of_selects (NodeTransform.identity_selects w.heap) hi hc
    hroot hp id source own ambient
  refine ⟨o, s, hresult, ?_⟩
  rw [hreplica.tree, hreplica.heap]
  exact hp.toJson?_copy_iff hi hobject hj

/-- A document that shares an array without items, and nothing else. -/
def hollow : Heap :=
  ⟨#[.object (.ofList [("a", .container 1), ("b", .container 2)]),
    .object (.ofList [("none", .container 2)]), .emptyArray]⟩

theorem preserves_hollow : ∃ o s,
    result NodeTransform.identity.toTransform
      (launch default [(⟨"d1"⟩, .container 0)] () () { heap := hollow }) = .ok o s ∧
    s.workspace.heap.toJson? o.tree =
      some (.object [("a", .object [("none", .array [])]), ("b", .array [])]) := by
  have hi : hollow.Indexable := by decide +kernel
  have hc : hollow.Closed := by decide +kernel
  have hj : hollow.toJson? (.container 0) =
      some (.object [("a", .object [("none", .array [])]), ("b", .array [])]) := rfl
  obtain ⟨o, s, hr, hiff⟩ := preserves_iff_unshared (w := { heap := hollow }) hi hc
    (show (0 : ContainerId) < hollow.size by decide) rfl hj default ⟨"d1"⟩ () ()
  exact ⟨o, s, hr, hiff.mpr ((Heap.unshared_iff hi).mpr (by decide +kernel))⟩

/-- A document with one object under two names. -/
def twins : Heap :=
  ⟨#[.object (.ofList [("a", .container 1), ("b", .container 1)]),
    .object (.ofList [("x", .bool true)])]⟩

/-- Of an object under two names the second copy comes out empty. -/
theorem not_preserved_twins :
    (twins.toJson? (.container 0)).map Json.render =
      some "\x7b\"a\":\x7b\"x\":true\x7d,\"b\":\x7b\"x\":true\x7d\x7d" ∧
    ∃ o s, result NodeTransform.identity.toTransform
      (launch default [(⟨"d1"⟩, .container 0)] () () { heap := twins }) = .ok o s ∧
    (s.workspace.heap.toJson? o.tree).map Json.render =
      some "\x7b\"a\":\x7b\"x\":true\x7d,\"b\":\x7b\x7d\x7d" := by
  have hcopy : (match result NodeTransform.identity.toTransform
      (launch default [(⟨"d1"⟩, .container 0)] () () { heap := twins }) with
      | .ok o s => (s.workspace.heap.toJson? o.tree).map Json.render
      | .error _ _ => none) = some "\x7b\"a\":\x7b\"x\":true\x7d,\"b\":\x7b\x7d\x7d" := by
    decide +kernel
  have hi : twins.Indexable := by decide +kernel
  have hc : twins.Closed := by decide +kernel
  obtain ⟨out, hp, _⟩ := Heap.exists_prunesTo hc (fun _ _ _ => false) 0
  obtain ⟨o, s, hr, _⟩ := result_of_selects (w := { heap := twins })
    (NodeTransform.identity_selects twins) hi hc (show (0 : ContainerId) < twins.size by decide) hp
    default ⟨"d1"⟩ () ()
  rw [hr] at hcopy
  exact ⟨by decide +kernel, o, s, hr, hcopy⟩

end Job

end Lineage
