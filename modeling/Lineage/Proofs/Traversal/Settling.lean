import Lineage.Proofs.Traversal.Sharing

/-! What a traversal has decided for good. Where a container was entered it stays entered, so a node that
was yielded once tells for the rest of the traversal whether members belong to its place. Whatever comes
between the steps, two walks through the members of one node therefore come to the same nodes. -/

namespace Lineage

theorem Pointer.beq_refl (p : Pointer) : (p == p) = true := beq_iff.mpr rfl

namespace Entrances

/-- What has been entered is still entered where it was. -/
def Keeps (e e' : Entrances) : Prop := ∀ id p, e.get? id = some p → e'.get? id = some p

/-- The node exposes its members when the container was entered at its pointer, and withholds them when
it was entered elsewhere. Scalars have none. -/
def Settles (e : Entrances) (n : Node) : Prop :=
  match n.value.id? with
  | some id => ∃ p, e.get? id = some p ∧ n.exposed = (p == n.pointer)
  | none => n.exposed = false

variable {e e' : Entrances} {n : Node}

theorem Keeps.refl (e : Entrances) : e.Keeps e := fun _ _ h => h

theorem Settles.mono (hs : e.Settles n) (hk : e.Keeps e') : e'.Settles n := by
  unfold Settles at hs ⊢
  cases hid : n.value.id? with
  | none => simpa only [hid] using hs
  | some id =>
    simp only [hid] at hs ⊢
    obtain ⟨p, hp, hexposed⟩ := hs
    exact ⟨p, hk id p hp, hexposed⟩

theorem settles_container_iff {id : ContainerId} (hid : n.value = .container id) :
    e.Settles n ↔ ∃ p, e.get? id = some p ∧ n.exposed = (p == n.pointer) := by
  simp only [Settles, hid, Tree.id?]

theorem settles_scalar_iff (hid : n.value.id? = none) : e.Settles n ↔ n.exposed = false := by
  simp only [Settles, hid]

/-- Nodes with one value and one pointer are settled in the same way. -/
theorem Settles.exposed_eq {m : Node} (hm : e.Settles m) (hn : e.Settles n)
    (hvalue : m.value = n.value) (hpointer : (m.pointer == n.pointer) = true) :
    m.exposed = n.exposed := by
  cases hid : n.value.id? with
  | none =>
    rw [(settles_scalar_iff hid).mp hn]
    exact (settles_scalar_iff (hvalue ▸ hid)).mp hm
  | some id =>
    have hvalue' := Tree.eq_container_of_id? hid
    obtain ⟨p, hp, hexposed⟩ := (settles_container_iff hvalue').mp hn
    obtain ⟨q, hq, hexposed'⟩ := (settles_container_iff (hvalue.trans hvalue')).mp hm
    obtain rfl : q = p := Option.some.inj (hq.symm.trans hp)
    rw [hexposed, hexposed', Bool.eq_iff_iff, Pointer.beq_iff, Pointer.beq_iff,
      Pointer.beq_iff.mp hpointer]

/-- Yielding an entry settles its node, and enters nothing anew. -/
theorem settles_yield (e : Entrances) (base : Pointer) (x : Segment × Tree) :
    (e.yield base x).2.Settles (e.yield base x).1 ∧ e.Keeps (e.yield base x).2 := by
  obtain ⟨key, value⟩ := x
  cases hid : value.id? with
  | none =>
    rw [yield_scalar e base hid]
    exact ⟨(settles_scalar_iff hid).mpr rfl, .refl e⟩
  | some id =>
    obtain rfl := Tree.eq_container_of_id? hid
    cases hget : e.get? id with
    | some p =>
      simp only [Entrances.yield, Tree.id?, enter, hget]
      exact ⟨(settles_container_iff rfl).mpr ⟨p, hget, rfl⟩, .refl e⟩
    | none =>
      simp only [Entrances.yield, Tree.id?, enter, hget]
      refine ⟨(settles_container_iff rfl).mpr ⟨base.append key, ?_, (Pointer.beq_refl _).symm⟩,
        fun i p hp => ?_⟩
      · exact (OrderedMap.get?_insert e id id _).trans (if_pos rfl)
      · refine (OrderedMap.get?_insert e id i _).trans ?_
        rw [if_neg, hp]
        rintro rfl
        rw [hget] at hp
        cases hp

end Entrances

namespace Cursor

/-- What a cursor yields is the scalar at the root, or the node of the first entry that is left. -/
theorem next?_cases {c c' : Cursor} {e e' : Entrances} {n : Node}
    (hnext : c.next? e = some (n, c', e')) :
    (∃ t, c.scalar = some t ∧ n = scalarNode c.base t ∧ c' = { c with scalar := none } ∧ e' = e) ∨
    ∃ x rest, c.scalar = none ∧ c.rest = x :: rest ∧ e.yield c.base x = (n, e') ∧
      c' = { c with rest } := by
  unfold next? at hnext
  cases hs : c.scalar with
  | some t =>
    simp only [hs] at hnext
    cases hnext
    exact .inl ⟨t, rfl, rfl, rfl, rfl⟩
  | none =>
    cases hr : c.rest with
    | nil =>
      simp only [hs, hr] at hnext
      cases hnext
    | cons x rest =>
      simp only [hs, hr] at hnext
      cases hnext
      exact .inr ⟨x, rest, rfl, rfl, rfl, rfl⟩

/-- What was entered decides about exposure, and about nothing else that a cursor yields. -/
theorem next?_congr {c c' : Cursor} {e e' : Entrances} {n : Node}
    (hnext : c.next? e = some (n, c', e')) (f : Entrances) :
    ∃ m f', c.next? f = some (m, c', f') ∧ m.key = n.key ∧ m.value = n.value ∧
      m.pointer = n.pointer := by
  rcases next?_cases hnext with ⟨t, hs, rfl, rfl, rfl⟩ | ⟨x, rest, hs, hr, hyield, rfl⟩
  · exact ⟨_, f, by simp only [next?, hs], rfl, rfl, rfl⟩
  · obtain rfl : (e.yield c.base x).1 = n := congrArg Prod.fst hyield
    refine ⟨(f.yield c.base x).1, (f.yield c.base x).2, by simp only [next?, hs, hr], ?_, ?_, ?_⟩
    · rw [Entrances.key_yield, Entrances.key_yield]
    · rw [Entrances.value_yield, Entrances.value_yield]
    · rw [Entrances.pointer_yield, Entrances.pointer_yield]

end Cursor

namespace Heap

variable {h : Heap} {c : Cursor} {nodes nodes' : List Node}

/-- The walk from a cursor, every node followed by the walk through its members, when anything may be
entered between its steps. -/
inductive Lists (h : Heap) : Cursor → List Node → Prop
  | done {c : Cursor} {e : Entrances} (hend : c.next? e = none) : Lists h c []
  | next {c c' : Cursor} {e e' : Entrances} {n : Node} {below after : List Node}
      (hnext : c.next? e = some (n, c', e')) (hbelow : Lists h (h.children n) below)
      (hafter : Lists h c' after) : Lists h c (n :: (below ++ after))

/-- Two walks from one cursor are the same when all their nodes are settled. -/
theorem Lists.unique (hl : h.Lists c nodes) (hl' : h.Lists c nodes') {e : Entrances}
    (hs : ∀ n ∈ nodes, e.Settles n) (hs' : ∀ n ∈ nodes', e.Settles n) : nodes = nodes' := by
  induction hl generalizing nodes' with
  | @done c e₁ hend =>
    cases hl' with
    | done => rfl
    | next hnext =>
      obtain ⟨_, _, hsome, _⟩ := Cursor.next?_congr hnext e₁
      rw [hend] at hsome
      cases hsome
  | @next c c' e₁ _ n below after hnext hbelow hafter ihbelow ihafter =>
    cases hl' with
    | @done _ e₂ hend =>
      obtain ⟨_, _, hsome, _⟩ := Cursor.next?_congr hnext e₂
      rw [hend] at hsome
      cases hsome
    | @next _ _ e₂ _ m below' after' hnext' hbelow' hafter' =>
      obtain ⟨k, _, hsame, hkey, hvalue, hpointer⟩ := Cursor.next?_congr hnext e₂
      rw [hnext'] at hsame
      cases hsame
      have hexposed : m.exposed = n.exposed :=
        (hs' m List.mem_cons_self).exposed_eq (hs n List.mem_cons_self) hvalue
          (hpointer ▸ Pointer.beq_refl _)
      obtain rfl : m = n := by
        cases m
        cases n
        simp only at hkey hvalue hpointer hexposed
        simp only [hkey, hvalue, hpointer, hexposed]
      have hin := fun k (hk : k ∈ below ++ after) => hs k (List.mem_cons_of_mem _ hk)
      have hin' := fun k (hk : k ∈ below' ++ after') => hs' k (List.mem_cons_of_mem _ hk)
      rw [ihbelow hbelow' (fun k hk => hin k (List.mem_append_left _ hk))
          fun k hk => hin' k (List.mem_append_left _ hk),
        ihafter hafter' (fun k hk => hin k (List.mem_append_right _ hk))
          fun k hk => hin' k (List.mem_append_right _ hk)]

end Heap

end Lineage
