import Lineage.Proofs.Tree.Growth
import Lineage.Traversal.Walk

/-! Positions of a complete traversal. Every node is yielded at a pointer that leads to its value,
and no pointer is yielded twice, however the containers are shared: what is still to come always
lies below pointers of which none is an ancestor of another. -/

namespace Lineage

/-- Neither path is an ancestor of the other. -/
def Apart (a b : List String) : Prop := ¬a <+: b ∧ ¬b <+: a

/-- Children of one parent are apart. -/
theorem apart_children {base : List String} {s u : String} (h : s ≠ u) :
    Apart (base ++ [s]) (base ++ [u]) := by
  constructor <;> intro hp <;> have heq := hp.eq_of_length (by simp) <;> simp_all

/-- What is apart from a node is apart from its children. -/
theorem Apart.child {a b : List String} (h : Apart a b) (s : String) : Apart (a ++ [s]) b := by
  refine ⟨fun hp => h.1 ((List.prefix_append a [s]).trans hp), fun hp => ?_⟩
  rcases List.prefix_concat_iff.mp hp with heq | hlt
  · exact h.1 (heq ▸ List.prefix_append a [s])
  · exact h.2 hlt

namespace Cursor

/-- What a cursor has still to yield, with the pointers of the nodes. -/
def pending (c : Cursor) : List (Pointer × Tree) := c.rest.map fun e => (c.base.append e.1, e.2)

end Cursor

/-- What a stack of open levels has still to yield, innermost level first. -/
def pendingOf (stack : List Cursor) : List (Pointer × Tree) := stack.flatMap Cursor.pending

theorem Entrances.pointer_yield (e : Entrances) (base : Pointer) (entry : Segment × Tree) :
    (e.yield base entry).1.pointer = base.append entry.1 := by
  unfold Entrances.yield
  cases entry.2.id? <;> rfl

theorem Entrances.value_yield (e : Entrances) (base : Pointer) (entry : Segment × Tree) :
    (e.yield base entry).1.value = entry.2 := by
  unfold Entrances.yield
  cases entry.2.id? <;> rfl

namespace Heap

variable {h : Heap}

theorem scalar_children (h : Heap) (n : Node) : (h.children n).scalar = none := by
  unfold children
  split <;> rfl

theorem mem_pending_children {n : Node} {q : Pointer × Tree}
    (hq : q ∈ (h.children n).pending) :
    ∃ s, (s, q.2) ∈ h.entries n.value ∧ q.1 = n.pointer.append s := by
  unfold children at hq
  split at hq
  · obtain ⟨e, he, rfl⟩ := List.mem_map.mp hq
    exact ⟨e.1, he, rfl⟩
  · cases hq

theorem member?_of_mem_entries (hi : h.Indexable) {t : Tree} {e : Segment × Tree}
    (he : e ∈ h.entries t) : h.member? t e.1 = some e.2 := by
  unfold entries at he
  unfold member?
  cases hc : h.container? t with
  | none => rw [hc] at he; cases he
  | some c =>
    rw [hc] at he
    obtain ⟨id, _, hid⟩ := Option.bind_eq_some_iff.mp hc
    exact Container.member?_of_mem_entries (hi id c hid) he

theorem pairwise_apart_entries (h : Heap) (base : Pointer) (t : Tree) :
    ((h.entries t).map fun e => (base.append e.1).tokens).Pairwise Apart := by
  have hn := h.nodup_tokens_entries t
  rw [List.Nodup, List.pairwise_map] at hn
  rw [List.pairwise_map]
  refine hn.imp fun hne => ?_
  rw [Pointer.tokens_append, Pointer.tokens_append]
  exact apart_children hne

/-- The children of a node may take its place among pointers that are apart. -/
theorem pairwise_apart_children {n : Node} {rest : List (Pointer × Tree)}
    (hp : (n.pointer.tokens :: rest.map (·.1.tokens)).Pairwise Apart) :
    (((h.children n).pending ++ rest).map (·.1.tokens)).Pairwise Apart := by
  obtain ⟨hhead, htail⟩ := List.pairwise_cons.mp hp
  rw [List.map_append, List.pairwise_append]
  refine ⟨?_, htail, fun a ha b hb => ?_⟩
  · unfold children
    split
    · simpa [Cursor.pending, Function.comp_def] using h.pairwise_apart_entries n.pointer n.value
    · exact .nil
  · obtain ⟨q, hq, rfl⟩ := List.mem_map.mp ha
    obtain ⟨s, _, hs⟩ := mem_pending_children hq
    rw [hs, Pointer.tokens_append]
    exact (hhead b hb).child s.token

/-- A step of `drain` either closes the innermost level or yields what comes next and opens it. -/
theorem drain_succ_cons (h : Heap) (steps : Nat) {top : Cursor} (htop : top.scalar = none)
    (stack : List Cursor) (e : Entrances) :
    (top.pending = [] ∧ h.drain (steps + 1) (top :: stack) e = h.drain steps stack e) ∨
    ∃ n e' top', top'.scalar = none ∧ top.pending = (n.pointer, n.value) :: top'.pending ∧
      h.drain (steps + 1) (top :: stack) e =
        n :: h.drain steps (h.children n :: top' :: stack) e' := by
  cases hr : top.rest with
  | nil =>
    refine .inl ⟨by simp [Cursor.pending, hr], ?_⟩
    simp only [drain, Cursor.next?, htop, hr]
  | cons entry rest =>
    refine .inr ⟨(e.yield top.base entry).1, (e.yield top.base entry).2, { top with rest }, htop, ?_, ?_⟩
    · simp [Cursor.pending, hr, Entrances.pointer_yield, Entrances.value_yield]
    · simp only [drain, Cursor.next?, htop, hr]

/-- A property of what is still to come and of the nodes that are yielded holds of every traversal if
it holds when nothing is yielded, and if a node may be yielded first before its children take its
place. -/
theorem drain_induction (h : Heap) {motive : List (Pointer × Tree) → List Node → Prop}
    (nil : ∀ pending, motive pending [])
    (cons : ∀ n pending nodes, motive ((h.children n).pending ++ pending) nodes →
      motive ((n.pointer, n.value) :: pending) (n :: nodes))
    (steps : Nat) {stack : List Cursor} (e : Entrances) (hs : ∀ c ∈ stack, c.scalar = none) :
    motive (pendingOf stack) (h.drain steps stack e) := by
  induction steps generalizing stack e with
  | zero => exact nil _
  | succ steps ih =>
    cases stack with
    | nil => exact nil _
    | cons top stack =>
      have hstack : ∀ c ∈ stack, c.scalar = none := fun c hc => hs c (List.mem_cons_of_mem _ hc)
      rcases h.drain_succ_cons steps (hs top List.mem_cons_self) stack e with
        ⟨hnone, heq⟩ | ⟨n, e', top', htop', hpend, heq⟩
      · have hsame : pendingOf (top :: stack) = pendingOf stack := by simp [pendingOf, hnone]
        rw [heq, hsame]
        exact ih e hstack
      · have hcons : pendingOf (top :: stack) =
            (n.pointer, n.value) :: pendingOf (top' :: stack) := by simp [pendingOf, hpend]
        have hopened : ∀ c ∈ h.children n :: top' :: stack, c.scalar = none := by
          simpa [h.scalar_children n, htop'] using hstack
        rw [heq, hcons]
        exact cons n _ _ (ih e' hopened)

/-- What is yielded lies at or below what was still to come, each at a pointer of its own. -/
theorem drain_positions (h : Heap) (steps : Nat) {stack : List Cursor} (e : Entrances)
    (hs : ∀ c ∈ stack, c.scalar = none)
    (hp : ((pendingOf stack).map (·.1.tokens)).Pairwise Apart) :
    (∀ n ∈ h.drain steps stack e, ∃ q ∈ pendingOf stack, q.1.tokens <+: n.pointer.tokens) ∧
      (h.drain steps stack e).Pairwise fun m n => m.pointer.tokens ≠ n.pointer.tokens := by
  revert hp
  refine h.drain_induction (motive := fun pending nodes =>
    (pending.map (·.1.tokens)).Pairwise Apart →
      (∀ n ∈ nodes, ∃ q ∈ pending, q.1.tokens <+: n.pointer.tokens) ∧
        nodes.Pairwise fun m n => m.pointer.tokens ≠ n.pointer.tokens) ?_ ?_ steps e hs
  · exact fun pending _ => ⟨fun n hn => absurd hn List.not_mem_nil, .nil⟩
  intro n pending nodes ih hp
  have hapart := (List.pairwise_cons.mp hp).1
  obtain ⟨hbelow, hdistinct⟩ := ih (h.pairwise_apart_children hp)
  -- a later node lies strictly below the first one, or below something that is apart from it
  have hlater : ∀ m ∈ nodes, n.pointer.tokens <+: m.pointer.tokens ∧
      n.pointer.tokens ≠ m.pointer.tokens ∨
      ∃ q ∈ pending, q.1.tokens <+: m.pointer.tokens := by
    intro m hm
    obtain ⟨q, hq, hpre⟩ := hbelow m hm
    rcases List.mem_append.mp hq with hq | hq
    · obtain ⟨s, _, hs'⟩ := mem_pending_children hq
      rw [hs', Pointer.tokens_append] at hpre
      refine .inl ⟨(List.prefix_append _ _).trans hpre, fun hsame => ?_⟩
      have hlength := hpre.length_le
      rw [hsame, List.length_append, List.length_singleton] at hlength
      omega
    · exact .inr ⟨q, hq, hpre⟩
  refine ⟨fun m hm => ?_, List.pairwise_cons.mpr ⟨fun m hm hsame => ?_, hdistinct⟩⟩
  · rcases List.mem_cons.mp hm with rfl | hm
    · exact ⟨(m.pointer, m.value), List.mem_cons_self, List.prefix_refl _⟩
    · rcases hlater m hm with ⟨hpre, _⟩ | ⟨q, hq, hpre⟩
      · exact ⟨(n.pointer, n.value), List.mem_cons_self, hpre⟩
      · exact ⟨q, List.mem_cons_of_mem _ hq, hpre⟩
  · rcases hlater m hm with ⟨_, hne⟩ | ⟨q, hq, hpre⟩
    · exact hne hsame
    · rw [← hsame] at hpre
      exact (hapart _ (List.mem_map_of_mem hq)).2 hpre

theorem drain_resolves (hi : h.Indexable) (t : Tree) (steps : Nat) {stack : List Cursor}
    (e : Entrances) (hs : ∀ c ∈ stack, c.scalar = none)
    (hp : ∀ q ∈ pendingOf stack, h.follow? t q.1.segments = some q.2) :
    ∀ n ∈ h.drain steps stack e, h.follow? t n.pointer.segments = some n.value := by
  revert hp
  refine h.drain_induction (motive := fun pending nodes =>
    (∀ q ∈ pending, h.follow? t q.1.segments = some q.2) →
      ∀ n ∈ nodes, h.follow? t n.pointer.segments = some n.value) ?_ ?_ steps e hs
  · exact fun pending _ n hn => absurd hn List.not_mem_nil
  intro n pending nodes ih hp
  have hn : h.follow? t n.pointer.segments = some n.value := hp _ List.mem_cons_self
  have hchildren : ∀ q ∈ (h.children n).pending, h.follow? t q.1.segments = some q.2 := by
    intro q hq
    obtain ⟨s, hmem, hs'⟩ := mem_pending_children hq
    rw [hs', Pointer.append, follow?_append, hn, Option.bind_some, follow?,
      member?_of_mem_entries hi hmem]
    rfl
  intro m hm
  rcases List.mem_cons.mp hm with rfl | hm
  · exact hn
  · refine ih (fun q hq => ?_) m hm
    rcases List.mem_append.mp hq with hq | hq
    · exact hchildren q hq
    · exact hp q (List.mem_cons_of_mem _ hq)

section Descendants

variable (h : Heap) (id : ContainerId)

theorem descendants_container : h.descendants (.container id) =
    h.drain (2 * (h.memberCount + 1) + 1) [{ rest := h.entries (.container id) }]
      (OrderedMap.empty.insert id .root) := rfl

theorem pendingOf_root : pendingOf [{ rest := h.entries (.container id) }] =
    (h.entries (.container id)).map fun e => (Pointer.root.append e.1, e.2) := by
  simp [pendingOf, Cursor.pending]

/-- A traversal yields no pointer twice. -/
theorem pairwise_pointers_descendants :
    (h.descendants (.container id)).Pairwise fun m n => m.pointer.tokens ≠ n.pointer.tokens := by
  rw [descendants_container]
  refine (h.drain_positions _ _ (by simp) ?_).2
  rw [pendingOf_root, List.map_map]
  exact h.pairwise_apart_entries .root (.container id)

/-- A traversal of a container yields what is below it and not the container itself. -/
theorem tokens_ne_nil_of_mem_descendants {n : Node} (hn : n ∈ h.descendants (.container id)) :
    n.pointer.tokens ≠ [] := by
  rw [descendants_container] at hn
  have hp : ((pendingOf [{ rest := h.entries (.container id) }]).map (·.1.tokens)).Pairwise Apart := by
    rw [pendingOf_root, List.map_map]
    exact h.pairwise_apart_entries .root (.container id)
  obtain ⟨q, hq, hpre⟩ := (h.drain_positions _ _ (by simp) hp).1 n hn
  rw [pendingOf_root] at hq
  obtain ⟨e, _, rfl⟩ := List.mem_map.mp hq
  intro hnil
  rw [hnil, Pointer.tokens_append] at hpre
  simpa using hpre.length_le

/-- The pointer of a node leads from the root of the traversal to the value of the node. -/
theorem resolve?_of_mem_descendants (hi : h.Indexable) {n : Node}
    (hn : n ∈ h.descendants (.container id)) :
    h.resolve? (.container id) n.pointer = some n.value := by
  rw [descendants_container] at hn
  refine drain_resolves hi (.container id) _ _ (by simp) (fun q hq => ?_) n hn
  rw [pendingOf_root] at hq
  obtain ⟨e, he, rfl⟩ := List.mem_map.mp hq
  change h.follow? (.container id) [e.1] = some e.2
  rw [follow?, member?_of_mem_entries hi he]
  rfl

end Descendants

end Heap

end Lineage
