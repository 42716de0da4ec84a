import Lineage.Proofs.Run.Descent
import Lineage.Proofs.Run.Registry

/-! Additions through proxies that anyone may have made. The run asks which container a proxy is over, and
refuses those that it did not allocate. The pointer and the sink are those of the proxy itself: the table
that it delivers to gains a mapping under the pointer that it carries. The two are those of the run for
every proxy that descends from the output root, and a forged proxy may have others.
-/

namespace Lineage

open Progress RunState

/-- What may be added under a key of a proxy. -/
inductive Addition where
  | write (w : TaggedWrite)
  | place (origin : Pointer) (value : Tree) (recurse : Bool)
  | placeCopy (origin : Pointer) (value : Tree) (recurse : Bool)
  | allocateObject (origin : Pointer)
  | allocateArray (origin : Pointer)

def Addition.run (target : Proxy) (key : Segment) : Addition → RunM Unit
  | .write w => Run.write target key w
  | .place origin value recurse => Run.place target key origin value recurse
  | .placeCopy origin value recurse => Run.placeCopy target key origin value recurse
  | .allocateObject origin => discard (Run.allocateObject target key origin)
  | .allocateArray origin => discard (Run.allocateArray target key origin)

namespace RunState

/-- The table that `p` delivers to has gained mappings, the first of them for the key under the pointer
that `p` carries. No other table has changed. -/
structure Records (s : RunState) (p : Proxy) (key : Segment) (ms : List Mapping) (s' : RunState) :
    Prop where
  gained : s'.workspace.tableEntries p.sink.table = s.workspace.tableEntries p.sink.table ++ ms
  spared : ∀ id, id ≠ p.sink.table → s'.workspace.table? id = s.workspace.table? id
  names : ∃ m rest, ms = m :: rest ∧ m.generated = p.location.append key

variable {s s' : RunState} {p : Proxy} {key : Segment} {ms : List Mapping}

theorem Records.of_withHeap {heap : Heap} (h : (s.withHeap heap).Records p key ms s') :
    s.Records p key ms s' := ⟨h.gained, h.spared, h.names⟩

theorem Records.registered (h : s.Records p key ms s') (id : ContainerId) (q : Pointer) :
    s.Records p key ms (s'.registered id q) := ⟨h.gained, h.spared, h.names⟩

end RunState

namespace Addition

variable {s s' : RunState} {target : Proxy} {key : Segment}

end Addition

namespace Run

end Run

end Lineage
