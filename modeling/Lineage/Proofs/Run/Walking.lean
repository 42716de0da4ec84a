import Lineage.Proofs.Run.Delivery
import Lineage.Proofs.Run.Filling
import Lineage.Proofs.Run.Merging

/-! Walking through a document without sharing. Where each container stands at one place only, a traversal
withholds nothing: a container that was entered was entered at its only place. So what a hook does for the
members of an object it does for each of them in order, with all members of each in sight. -/

namespace Lineage

/-- Every container was entered where it stands in the tree. -/
def Entrances.LeadsIn (e : Entrances) (h : Heap) (t : Tree) : Prop :=
  ∀ id p, e.get? id = some p → h.resolve? t p = some (.container id)

/-- The entry is a member of an object with its value. -/
def Heap.Matches (h : Heap) (x : Segment × Tree) (m : String × Json) : Prop :=
  x.1 = .key m.1 ∧ h.Unfolds x.2 m.2

variable {σ τ : Type} {h : Heap} {t u : Tree} {e : Entrances} {base : Pointer} {x : Segment × Tree}
  {lo hi : ContainerId} {ms : List (String × Json)} {visit : TraversalId} {s s' : HookState σ τ}

/-- The node of an entry that withholds nothing. -/
def Node.open (base : Pointer) (x : Segment × Tree) : Node :=
  ⟨x.1, x.2, base.append x.1, x.2.isComposite⟩

/-- What stands at an entry is what the entry has. -/
theorem Heap.resolve?_of_mem_entries (hindex : h.Indexable) (hbase : h.resolve? t base = some u)
    (hx : x ∈ h.entries u) : h.resolve? t (base.append x.1) = some x.2 :=
  (Heap.resolve?_append hbase x.1).trans (Heap.member?_of_mem_entries hindex hx)

/-- Nothing is withheld of a container that stands at one place. -/
theorem Entrances.LeadsIn.yield (he : e.LeadsIn h t) (hw : h.Within lo hi t) (hindex : h.Indexable)
    (hbase : h.resolve? t base = some u) (hx : x ∈ h.entries u) :
    (e.yield base x).1 = Node.open base x ∧ (e.yield base x).2.LeadsIn h t := by
  have hplace := Heap.resolve?_of_mem_entries hindex hbase hx
  obtain ⟨key, value⟩ := x
  cases hid : value.id? with
  | none =>
    rw [Entrances.yield_scalar e base hid]
    exact ⟨by simp [Node.open, Tree.isComposite, hid], he⟩
  | some id =>
    obtain rfl := Tree.eq_container_of_id? hid
    cases hget : e.get? id with
    | none =>
      have hyield : e.yield base (key, .container id) =
          (Node.open base (key, .container id), e.insert id (base.append key)) := by
        simp [Entrances.yield, Tree.id?, Entrances.enter, hget, Node.open, Tree.isComposite]
      rw [hyield]
      refine ⟨rfl, fun i p hp => ?_⟩
      rw [OrderedMap.get?_insert] at hp
      split at hp
      · rename_i heq
        cases hp
        exact heq ▸ hplace
      · exact he i p hp
    | some q =>
      -- it was entered at its only place, and that is here
      have hsame : (q == base.append key) = true :=
        Pointer.beq_iff.mpr (hw.place (he id q hget) hplace)
      have hyield : e.yield base (key, .container id) = (Node.open base (key, .container id), e) := by
        simp [Entrances.yield, Tree.id?, Entrances.enter, hget, hsame, Node.open, Tree.isComposite]
      rw [hyield]
      exact ⟨rfl, he⟩

/-- The members of an object have their values, each under its name. -/
theorem Heap.Unfolds.matches (hu : h.Unfolds u (.object ms)) :
    List.Forall₂ h.Matches (h.entries u) ms ∧ ∃ id, u = .container id := by
  cases u with
  | container id =>
    obtain ⟨vs, hvs, hobject⟩ := Heap.unfolds_container_iff.mp hu
    cases harray : h.isArray (.container id) with
    | true =>
      rw [harray] at hobject
      cases hobject
    | false =>
      rw [harray] at hobject
      cases hobject
      refine ⟨?_, id, rfl⟩
      rw [Heap.UnfoldsAll, Heap.members, named, List.forall₂_map_left_iff] at hvs
      have hkeys : ∀ x ∈ h.entries (.container id), x.1 = .key x.1.token := fun x hx =>
        Heap.key_of_mem_entries harray hx
      clear hu
      generalize h.entries (.container id) = entries at hvs hkeys
      induction hvs with
      | nil => exact .nil
      | @cons x m _ _ hx _ ih =>
        refine .cons ⟨?_, hx.2⟩ (ih fun x hx => hkeys x (List.mem_cons_of_mem _ hx))
        have hname : x.1.token = m.1 := hx.1
        rw [← hname]
        exact hkeys x List.mem_cons_self
  | null | bool _ | number _ | string _ => cases hu

/-- The traversal has entered containers where they stand in the tree. -/
def HookState.Visits (s : HookState σ τ) (h : Heap) (t : Tree) (visit : TraversalId) : Prop :=
  ∃ e, s.workspace.traversals[visit]? = some e ∧ e.LeadsIn h t

namespace Hook

/-- What succeeds step by step succeeds in its first step and then in the rest. -/
theorem exists_of_bind_ok {ε S α β : Type} {m : EStateM ε S α} {f : α → EStateM ε S β} {s s'' : S} {b : β}
    (hok : (m >>= f) s = .ok b s'') : ∃ a s', m s = .ok a s' ∧ f a s' = .ok b s'' := by
  cases hm : m s with
  | ok a s' =>
    rw [bind_of_ok hm] at hok
    exact ⟨a, s', rfl, hok⟩
  | error e s' =>
    rw [bind_of_error hm] at hok
    cases hok

theorem exists_of_liftRun_ok {α : Type} {m : RunM α} {a : α}
    (hok : (liftRun m : Hook σ τ α) s = .ok a s') : ∃ r, m s.runState = .ok a r ∧ s' = s.withRun r := by
  cases hm : m s.runState with
  | ok b r =>
    rw [liftRun_of_ok hm] at hok
    cases hok
    exact ⟨r, rfl, rfl⟩
  | error e r =>
    rw [liftRun_of_error hm] at hok
    cases hok

/-- What holds before any member, and still holds after each, holds after all of them. `P` is told which
members are done. -/
theorem forEntries_induction {P : List (String × Json) → HookState σ τ → Prop} {Q : String × Json → Prop}
    {f : Node → Hook σ τ Unit} (hw : h.Within lo hi t) (hindex : h.Indexable)
    (hbase : h.resolve? t base = some u) (hvisits : ∀ done s, P done s → s.Visits h t visit)
    (hentering : ∀ done s e, P done s → e.LeadsIn h t → P done (s.entering visit e))
    (hstep : ∀ done m x s s', P done s → Q m → x ∈ h.entries u → h.Matches x m →
      f (Node.open base x) s = .ok () s' → P (done ++ [m]) s') :
    ∀ entries ms done s s', List.Forall₂ h.Matches entries ms → (∀ m ∈ ms, Q m) →
      entries ⊆ h.entries u → P done s → forEntries visit base f entries s = .ok () s' →
      P (done ++ ms) s' := by
  intro entries ms done s s' hall
  induction hall generalizing done s with
  | nil =>
    intro _ _ hs hok
    cases hok
    rwa [List.append_nil]
  | @cons x m entries ms hx _ ih =>
    intro hms hsub hs hok
    obtain ⟨e, hget, he⟩ := hvisits done s hs
    obtain ⟨hm, hms'⟩ := List.forall_mem_cons.mp hms
    obtain ⟨hxmem, hrest⟩ := List.cons_subset.mp hsub
    obtain ⟨hnode, he'⟩ := he.yield hw hindex hbase hxmem
    rw [forEntries_cons hget, hnode] at hok
    obtain ⟨_, s₁, hfirst, hok⟩ := exists_of_bind_ok hok
    have hnext := hstep done m x _ s₁ (hentering done s _ hs he') hm hxmem hx hfirst
    rw [List.append_cons]
    exact ih (done ++ [m]) s₁ hms' hrest hnext hok

/-- The members of an open node are gone through one by one. -/
theorem forMembers_open {f : Node → Hook σ τ Unit} (hg : h.Grows s.workspace.heap) (hhas : h.Has x.2)
    {id : ContainerId} (hid : x.2 = .container id) :
    forMembers visit (Node.open base x) f s =
      forEntries visit (base.append x.1) f (h.entries x.2) s := by
  have hchildren : s.workspace.heap.children (Node.open base x) =
      { base := base.append x.1, rest := h.entries x.2 } := by
    rw [Heap.children, ← hg.entries_eq hhas]
    simp [Node.open, Tree.isComposite, hid, Tree.id?]
  show forNodes visit (s.workspace.heap.children (Node.open base x)) f s = _
  rw [hchildren]
  rfl

end Hook

end Lineage
