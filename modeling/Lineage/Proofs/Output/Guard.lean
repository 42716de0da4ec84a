import Lineage.Proofs.Output.Put
import Lineage.Proofs.Tree.Unfolding

/-! The guard of writes. A write is accepted where it names its origin, the sink is open, and the
container has room for it; then it adds one member and delivers its mappings, and else it changes nothing.
-/

namespace Lineage

namespace Container

/-- Where a container has room: under a name that no member has, or behind the last item. -/
def Vacant (key : Segment) : Container → Prop
  | .object members => key.token ∉ members.keys
  | .array items => key.asIndex = some items.length

theorem isSome_add?_iff {c : Container} {key : Segment} {v : Tree} :
    (c.add? key v).isSome ↔ c.Vacant key := by
  cases c with
  | object members =>
    rw [Vacant, OrderedMap.mem_keys_iff, add?]
    split <;> simp [*]
  | array items =>
    rw [Vacant, add?]
    split <;> simp [*]

end Container

namespace Assignment

def value : Assignment → Tree
  | .tagged write => write.value
  | .bare value => value

/-- Where the value came from, if the assignment says so. -/
def origin? : Assignment → Option Pointer
  | .tagged write => write.origin
  | .bare _ => none

theorem isSome_origin?_iff {a : Assignment} :
    a.origin?.isSome ↔ ∃ write origin, a = .tagged write ∧ write.origin = some origin := by
  cases a with
  | bare v => simp [origin?]
  | tagged write => simp [origin?, Option.isSome_iff_exists]

end Assignment

namespace Proxy

/-- One member more in the container of the proxy, and the mappings of the write in its table; all else
is as it was. -/
structure Adds (p : Proxy) (key : Segment) (write : TaggedWrite) (origin : Pointer) (w w' : Workspace) :
    Prop where
  isArray : w'.heap.isArray p.tree = w.heap.isArray p.tree
  members : w'.heap.members p.tree = w.heap.members p.tree ++ [(key.token, write.value)]
  others : ∀ id, id ≠ p.backing → w'.heap.get? id = w.heap.get? id
  delivered : w'.tableEntries p.sink.table =
    w.tableEntries p.sink.table ++ p.mappingsOf key write origin w'.heap
  tables : ∀ id, id ≠ p.sink.table → w'.table? id = w.table? id

/-- What becomes of a write to a container. -/
structure Guards (p : Proxy) (key : Segment) (a : Assignment) (c : Container) (w : Workspace) : Prop where
  succeeds_iff : succeeds (p.put key a w) ↔ a.origin?.isSome ∧ w.accepts p.sink ∧ c.Vacant key
  accepted : ∀ {w'}, p.put key a w = .ok () w' →
    ∃ write origin, a = .tagged write ∧ write.origin = some origin ∧ p.Adds key write origin w w'
  refused : ∀ {e w'}, p.put key a w = .error e w' → w' = w

variable {p : Proxy} {key : Segment} {write : TaggedWrite} {origin : Pointer} {c c' : Container}
  {w : Workspace}

theorem adds_written (hopen : w.accepts p.sink = true) (hc : w.heap.get? p.backing = some c)
    (hadd : c.add? key write.value = some c') :
    p.Adds key write origin w (p.written key write origin c' w) := by
  have hget (id : ContainerId) : (p.written key write origin c' w).heap.get? id =
      if p.backing = id then some c' else w.heap.get? id := by
    refine (Heap.get?_set ..).trans ?_
    simp only [and_iff_left (Heap.lt_size_of_get? hc)]
  have hself : (p.written key write origin c' w).heap.get? p.backing = some c' := by
    rw [hget, if_pos rfl]
  obtain ⟨t, ht⟩ := Workspace.exists_table_of_accepts hopen
  constructor
  case isArray =>
    simp only [Heap.isArray, Heap.container?, Proxy.tree, Tree.id?, Option.bind_some, hself, hc,
      Option.map_some, Option.getD_some, Container.isArray_of_add? hadd]
  case members =>
    simp only [Heap.members, Heap.entries, Heap.container?, Proxy.tree, Tree.id?, Option.bind_some, hself,
      hc, Option.map_some, Option.getD_some, Container.named_of_add? hadd]
  case others => exact fun id hid => (hget id).trans (if_neg hid.symm)
  case delivered => exact Workspace.tableEntries_recordAll ht _
  case tables => exact fun id hid => Workspace.table?_recordAll_of_ne hid.symm _ _

/-- Every write is guarded. -/
theorem guards (key : Segment) (a : Assignment) (hc : w.heap.get? p.backing = some c) :
    p.Guards key a c w := by
  constructor
  case succeeds_iff =>
    constructor
    · intro hsucceeds
      rcases p.put_cases key a w with ⟨e, he⟩ | ⟨write, origin, d, d', rfl, ho, hopen, hd, hadd, _⟩
      · rw [he] at hsucceeds
        cases hsucceeds
      · cases hc.symm.trans hd
        refine ⟨Assignment.isSome_origin?_iff.mpr ⟨write, origin, rfl, ho⟩, hopen, ?_⟩
        exact Container.isSome_add?_iff.mp (Option.isSome_iff_exists.mpr ⟨d', hadd⟩)
    · rintro ⟨horigin, hopen, hvacant⟩
      obtain ⟨write, origin, rfl, ho⟩ := Assignment.isSome_origin?_iff.mp horigin
      obtain ⟨c', hadd⟩ := Option.isSome_iff_exists.mp (Container.isSome_add?_iff.mpr hvacant)
      rw [p.put_of_add? ho hopen hc hadd]
      rfl
  case accepted =>
    intro w' hok
    rcases p.put_cases key a w with ⟨e, he⟩ | ⟨write, origin, d, d', rfl, ho, hopen, hd, hadd, hput⟩
    · cases he.symm.trans hok
    · cases hput.symm.trans hok
      exact ⟨write, origin, rfl, ho, adds_written hopen hd hadd⟩
  case refused =>
    intro e w' herror
    rcases p.put_cases key a w with ⟨e', he⟩ | ⟨_, _, _, _, _, _, _, _, _, hput⟩
    · cases he.symm.trans herror
      rfl
    · cases hput.symm.trans herror

end Proxy

end Lineage
