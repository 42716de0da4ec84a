import Lineage.Proofs.Output.Attempts
import Lineage.Proofs.Traversal.Leaves
import Lineage.Proofs.Tree.Renaming

/-! Writes in heaps that hold the same containers under different identities. A traversal finds the same
nodes at the same pointers, so the mappings of a write are the same, and so is the reason for which it is
refused.
-/

namespace Lineage

variable {f : ContainerId → ContainerId} {h h' : Heap}

def Node.rename (f : ContainerId → ContainerId) (n : Node) : Node := { n with value := n.value.rename f }

namespace Heap

theorem Renames.isChildless_eq (hr : h.Renames f h') (n : Node) :
    h'.isChildless (n.rename f) = h.isChildless n := by
  rw [isChildless, isChildless, ← hr.length_eq n.value]
  rfl

theorem Enumerates.rename (hr : h.Renames f h') (hf : Function.Injective f) {base : Pointer}
    {ids ids' : List ContainerId} {entries : List (Segment × Tree)} {nodes : List Node}
    (hen : h.Enumerates base ids entries nodes ids') :
    h'.Enumerates base (ids.map f) (entries.map fun e => (e.1, e.2.rename f)) (nodes.map (Node.rename f))
      (ids'.map f) := by
  induction hen with
  | nil => exact .nil
  | @withheld base ids ids' x rest after hx _ ih =>
    refine .withheld (fun id hid => ?_) ih
    rw [Tree.id?_rename] at hid
    obtain ⟨i, hi, rfl⟩ := Option.map_eq_some_iff.mp hid
    exact List.mem_map_of_mem (hx i hi)
  | @exposed base ids ids₁ ids' key id rest below after hid _ _ ihbelow ihrest =>
    rw [← hr.entries_eq] at ihbelow
    rw [List.map_cons, List.map_cons, List.map_append]
    refine .exposed (fun hmem => hid ?_) ihbelow ihrest
    obtain ⟨i, hi, heq⟩ := List.mem_map.mp hmem
    exact hf heq ▸ hi

theorem Renames.leaves_eq (hr : h.Renames f h') (hf : Function.Injective f) (root : ContainerId) :
    h'.leaves (.container (f root)) = (h.leaves (.container root)).map (Node.rename f) := by
  obtain ⟨ids, hen⟩ := h.exists_enumeration root
  have hen' := hen.rename hr hf
  rw [← hr.entries_eq] at hen'
  rw [Heap.leaves_eq, Heap.leaves_eq, hen'.descendants_eq, List.filter_map]
  congr 1
  exact List.filter_congr fun n _ => hr.isChildless_eq n

end Heap

def Proxy.rename (f : ContainerId → ContainerId) (p : Proxy) : Proxy := { p with backing := f p.backing }

def TaggedWrite.rename (f : ContainerId → ContainerId) (w : TaggedWrite) : TaggedWrite :=
  { w with value := w.value.rename f }

def Assignment.rename (f : ContainerId → ContainerId) : Assignment → Assignment
  | .tagged write => .tagged (write.rename f)
  | .bare value => .bare (value.rename f)

/-- The containers are renamed, and the tables are the same. -/
structure Workspace.Renames (f : ContainerId → ContainerId) (w w' : Workspace) : Prop where
  heap : w.heap.Renames f w'.heap
  tables : w'.tables = w.tables

section Results

variable {ε σ α β γ δ : Type} {r : σ → σ → Prop}

/-- Both operations fail with one error, or the second one answers what the first does after `g`, and
they leave related states behind. -/
structure Follows (r : σ → σ → Prop) (g : α → β) (x : EStateM.Result ε σ α) (y : EStateM.Result ε σ β) :
    Prop where
  outcome_eq : outcome y = (outcome x).map g
  after : r (after x) (after y)

theorem Follows.ok {g : α → β} {a : α} {s s' : σ} (hs : r s s') :
    Follows (ε := ε) r g (.ok a s) (.ok (g a) s') := ⟨rfl, hs⟩

theorem Follows.error {g : α → β} {e : ε} {s s' : σ} (hs : r s s') :
    Follows r g (.error e s) (.error e s') := ⟨rfl, hs⟩

/-- What follows step by step follows. -/
theorem Follows.bind {g : α → β} {k : γ → δ} {m : EStateM ε σ α} {m' : EStateM ε σ β}
    {n : α → EStateM ε σ γ} {n' : β → EStateM ε σ δ} {s s' : σ} (hm : Follows r g (m s) (m' s'))
    (hn : ∀ a t t', r t t' → Follows r k (n a t) (n' (g a) t')) :
    Follows r k ((m >>= n) s) ((m' >>= n') s') := by
  obtain ⟨houtcome, hafter⟩ := hm
  cases hx : m s with
  | ok a t =>
    cases hy : m' s' with
    | ok b t' =>
      rw [hx, hy] at houtcome hafter
      cases houtcome
      rw [bind_of_ok hx, bind_of_ok hy]
      exact hn a t t' hafter
    | error e t' =>
      rw [hx, hy] at houtcome
      cases houtcome
  | error e t =>
    cases hy : m' s' with
    | ok b t' =>
      rw [hx, hy] at houtcome
      cases houtcome
    | error e' t' =>
      rw [hx, hy] at houtcome hafter
      cases houtcome
      rw [bind_of_error hx, bind_of_error hy]
      exact .error hafter

/-- What is made of the answers follows, if it is made of them alike. -/
theorem Follows.map {g : α → β} {k : γ → δ} {m : EStateM ε σ α} {m' : EStateM ε σ β} {a : α → γ} {b : β → δ}
    {s s' : σ} (hm : Follows r g (m s) (m' s')) (hab : ∀ x, b (g x) = k (a x)) :
    Follows r k ((a <$> m) s) ((b <$> m') s') := by
  have hbind : Follows r k ((m >>= fun x => pure (a x)) s) ((m' >>= fun x => pure (b x)) s') :=
    hm.bind fun x t t' ht => hab x ▸ .ok ht
  exact hbind

end Results

namespace Proxy

variable {w w' : Workspace}

theorem mappingsOf_rename (hr : h.Renames f h') (hf : Function.Injective f) (p : Proxy) (key : Segment)
    (write : TaggedWrite) (origin : Pointer) :
    (p.rename f).mappingsOf key (write.rename f) origin h' = p.mappingsOf key write origin h := by
  have htop : (p.rename f).topMapping key (write.rename f) origin = p.topMapping key write origin := rfl
  rw [mappingsOf, mappingsOf, htop]
  cases hv : write.value with
  | container id =>
    have hvalue : (write.rename f).value = .container (f id) := by rw [TaggedWrite.rename, hv]; rfl
    rw [hvalue, hr.leaves_eq hf, List.map_map]
    rfl
  | _ =>
    have hvalue : (write.rename f).value.isComposite = false := by rw [TaggedWrite.rename, hv]; rfl
    rw [hvalue, Bool.and_false]
    simp [Tree.isComposite, Tree.id?]

theorem accepts_eq (hr : w.Renames f w') (s : Sink) : w'.accepts s = w.accepts s := by
  simp only [Workspace.accepts, Workspace.table?, hr.tables]

/-- Why a value does not go into a container. -/
def refusal? (p : Proxy) (key : Segment) (generated : Pointer) : Option Container → Option WriteError
  | none => some .notAContainer
  | some (.object members) =>
    if members.contains key.token then some (.duplicateWrite generated) else none
  | some (.array items) =>
    match key.asIndex with
    | none => some (.invalidKey p.location key.token)
    | some index =>
      if index < items.length then some (.duplicateWrite generated)
      else if index > items.length then some (.indexOutOfBounds p.location index items.length)
      else none

theorem refusal?_rename (p : Proxy) (key : Segment) (generated : Pointer) (c : Option Container) :
    (p.rename f).refusal? key generated (c.map (Container.rename f)) = p.refusal? key generated c := by
  rcases c with _ | ⟨members | items⟩
  · rfl
  · simp only [Option.map_some, Container.rename, refusal?, OrderedMap.contains_mapValues]
  · simp only [Option.map_some, Container.rename, refusal?, List.length_map]
    rfl

theorem insertAt_eq_error_iff {p : Proxy} {key : Segment} {generated : Pointer} {v : Tree}
    {e : WriteError} {u : Workspace} : p.insertAt key generated v w = .error e u ↔
      p.refusal? key generated (w.heap.get? p.backing) = some e ∧ u = w := by
  have hthrow (e' : WriteError) : (throw e' : WriteM Unit) w = .error e u ↔ some e' = some e ∧ u = w := by
    change EStateM.Result.error e' w = .error e u ↔ _
    simp only [EStateM.Result.error.injEq, Option.some.injEq, eq_comm]
  have hset (w' : Workspace) : (set w' : WriteM Unit) w = .error e u ↔ none = some e ∧ u = w := by
    change EStateM.Result.ok _ w' = .error e u ↔ _
    simp
  unfold insertAt
  rw [get_bind]
  cases hc : w.heap.get? p.backing with
  | none => exact hthrow _
  | some c =>
    cases c with
    | object members =>
      simp only [refusal?]
      split
      · exact hthrow _
      · exact hset _
    | array items =>
      simp only [refusal?]
      cases key.asIndex with
      | none => exact hthrow _
      | some index =>
        dsimp only
        split
        · exact hthrow _
        · split
          · exact hthrow _
          · exact hset _

theorem written_rename (hr : w.Renames f w') (hf : Function.Injective f) (p : Proxy) (key : Segment)
    (write : TaggedWrite) (origin : Pointer) (c : Container) :
    (p.written key write origin c w).Renames f
      ((p.rename f).written key (write.rename f) origin (c.rename f) w') := by
  have hheap : (w.heap.set p.backing c).Renames f (w'.heap.set (p.rename f).backing (c.rename f)) :=
    hr.heap.set hf p.backing c
  have hmappings := mappingsOf_rename hheap hf p key write origin
  refine ⟨hheap, ?_⟩
  simp only [written, Workspace.recordAll, Workspace.modifyTable, hmappings, hr.tables]
  rfl

/-- A write that has nowhere to go is refused for that reason. -/
theorem put_of_insertAt_error {p : Proxy} {key : Segment} {write : TaggedWrite} {origin : Pointer}
    {e : WriteError} (ho : write.origin = some origin) (hopen : w.accepts p.sink = true)
    (he : p.insertAt key (p.location.append key) write.value w = .error e w) :
    p.put key (.tagged write) w = .error e w := by
  simp only [put, ho, get_bind, hopen, Bool.not_true, Bool.false_eq_true, if_false]
  exact bind_of_error he

/-- A write that the sink takes goes into the container, or it is refused for what that container is. -/
theorem put_rename_of_accepts (hr : w.Renames f w') (hf : Function.Injective f) {p : Proxy} {key : Segment}
    {write : TaggedWrite} {origin : Pointer} (ho : write.origin = some origin)
    (hopen : w.accepts p.sink = true) : Follows (Workspace.Renames f) id (p.put key (.tagged write) w)
      ((p.rename f).put key (.tagged (write.rename f)) w') := by
  have ho' : (write.rename f).origin = some origin := ho
  have hopen' : w'.accepts (p.rename f).sink = true := (accepts_eq hr p.sink).trans hopen
  have hget : w'.heap.get? (p.rename f).backing = (w.heap.get? p.backing).map (Container.rename f) :=
    hr.heap.get?_eq p.backing
  rcases p.insertAt_cases key (p.location.append key) write.value w with ⟨e, he⟩ | ⟨c, c', hc, hadd, _⟩
  · have he' : (p.rename f).insertAt key ((p.rename f).location.append key) (write.rename f).value w' =
        .error e w' := by
      rw [insertAt_eq_error_iff] at he ⊢
      refine ⟨?_, rfl⟩
      rw [hget]
      exact (refusal?_rename p key _ _).trans he.1
    rw [put_of_insertAt_error ho hopen he, put_of_insertAt_error ho' hopen' he']
    exact .error hr
  · have hadd' : (c.rename f).add? key (write.rename f).value = some (c'.rename f) := by
      rw [TaggedWrite.rename, c.add?_rename, hadd]
      rfl
    rw [hc] at hget
    rw [p.put_of_add? ho hopen hc hadd, (p.rename f).put_of_add? ho' hopen' hget hadd']
    exact .ok (written_rename hr hf p key write origin c')

/-- A write is refused for the same reason, or it delivers the same mappings. -/
theorem put_rename (hr : w.Renames f w') (hf : Function.Injective f) (p : Proxy) (key : Segment)
    (a : Assignment) : Follows (Workspace.Renames f) id (p.put key a w)
      ((p.rename f).put key (a.rename f) w') := by
  cases a with
  | bare v => exact .error hr
  | tagged write =>
    rw [Assignment.rename]
    cases ho : write.origin with
    | none =>
      have ho' : (write.rename f).origin = none := ho
      simp only [put, ho, ho']
      exact .error hr
    | some origin =>
      cases hopen : w.accepts p.sink with
      | true => exact put_rename_of_accepts hr hf ho hopen
      | false =>
        have ho' : (write.rename f).origin = some origin := ho
        have hclosed' : w'.accepts (p.rename f).sink = false := (accepts_eq hr p.sink).trans hopen
        simp only [put, ho, ho', get_bind, hopen, hclosed']
        exact .error hr

end Proxy

end Lineage
