import Lineage.Proofs.Traversal.Positions
import Lineage.Proofs.Tree.Additions

/-! What a lazy traversal has entered. A container is exposed where it is yielded first: it was not
entered before, and it is entered there. Anywhere else it is withheld, because what was entered so far
does not lie at or below what is still to come. -/

namespace Lineage

namespace Entrances

variable {e e' e'' : Entrances} {base : Pointer} {entries rest : List (Segment × Tree)}
  {x : Segment × Tree} {ids : List ContainerId}

/-- Exactly these containers have been entered. -/
def Tracks (e : Entrances) (ids : List ContainerId) : Prop :=
  ∀ id, (e.get? id).isSome = true ↔ id ∈ ids

/-- No container was entered at or below the entries. -/
def Clear (e : Entrances) (base : Pointer) (entries : List (Segment × Tree)) : Prop :=
  ∀ id p, e.get? id = some p → ∀ x ∈ entries, ¬(base.append x.1).tokens <+: p.tokens

/-- What has been entered since then was entered at or below the entries. -/
def Within (e e' : Entrances) (base : Pointer) (entries : List (Segment × Tree)) : Prop :=
  ∀ id p, e'.get? id = some p →
    e.get? id = some p ∨ ∃ x ∈ entries, (base.append x.1).tokens <+: p.tokens

theorem Within.refl (e : Entrances) (base : Pointer) (entries : List (Segment × Tree)) :
    e.Within e base entries := fun _ _ h => .inl h

theorem Within.trans (h₁ : e.Within e' base [x]) (h₂ : e'.Within e'' base rest) :
    e.Within e'' base (x :: rest) := by
  intro id p hp
  rcases h₂ id p hp with hp | ⟨y, hy, hpre⟩
  · rcases h₁ id p hp with hp | ⟨y, hy, hpre⟩
    · exact .inl hp
    · rw [List.mem_singleton] at hy
      exact .inr ⟨x, List.mem_cons_self, hy ▸ hpre⟩
  · exact .inr ⟨y, List.mem_cons_of_mem _ hy, hpre⟩

/-- What lies below the members of an entry lies below the entry. -/
theorem Within.below (h₁ : e.Within e' base [x]) (h₂ : e'.Within e'' (base.append x.1) entries) :
    e.Within e'' base [x] := by
  intro id p hp
  rcases h₂ id p hp with hp | ⟨y, _, hpre⟩
  · exact h₁ id p hp
  · rw [Pointer.tokens_append] at hpre
    exact .inr ⟨x, List.mem_singleton_self x, (List.prefix_append _ _).trans hpre⟩

/-- What comes after an entry stays clear of it. -/
theorem Clear.after (hc : e.Clear base (x :: rest)) (hw : e.Within e' base [x])
    (hn : ((x :: rest).map (·.1.token)).Nodup) : e'.Clear base rest := by
  intro id p hp y hy hpre
  rcases hw id p hp with hp | ⟨z, hz, hpre'⟩
  · exact hc id p hp y (List.mem_cons_of_mem _ hy) hpre
  · rw [List.mem_singleton] at hz
    subst z
    have hne : x.1.token ≠ y.1.token := by
      intro heq
      have hmem : x.1.token ∈ rest.map (·.1.token) := List.mem_map.mpr ⟨y, hy, heq.symm⟩
      exact (List.nodup_cons.mp hn).1 hmem
    rw [Pointer.tokens_append] at hpre hpre'
    have hapart : Apart (base.tokens ++ [x.1.token]) (base.tokens ++ [y.1.token]) :=
      apart_children hne
    rcases List.prefix_or_prefix_of_prefix hpre' hpre with h | h
    · exact hapart.1 h
    · exact hapart.2 h

theorem key_yield (e : Entrances) (base : Pointer) (x : Segment × Tree) :
    (e.yield base x).1.key = x.1 := by
  unfold Entrances.yield
  cases x.2.id? <;> rfl

/-- A scalar is nothing to enter. -/
theorem yield_scalar (e : Entrances) (base : Pointer) {key : Segment} {value : Tree}
    (hv : value.id? = none) :
    e.yield base (key, value) = (⟨key, value, base.append key, false⟩, e) := by
  simp only [Entrances.yield, hv]

/-- A container that was entered before is withheld. -/
theorem yield_again (ht : e.Tracks ids) {key : Segment} {id : ContainerId} (hid : id ∈ ids)
    (hc : e.Clear base ((key, .container id) :: rest)) :
    e.yield base (key, .container id) = (⟨key, .container id, base.append key, false⟩, e) := by
  obtain ⟨p, hp⟩ := Option.isSome_iff_exists.mp ((ht id).mpr hid)
  have hne : (p == base.append key) = false := by
    rw [Bool.eq_false_iff]
    intro heq
    have htokens : p.tokens = (base.append key).tokens := Pointer.beq_iff.mp heq
    exact hc id p hp _ List.mem_cons_self (htokens ▸ List.prefix_refl _)
  simp only [Entrances.yield, Tree.id?, enter, hp, hne]

/-- Scalars and containers that were entered before are withheld. -/
theorem yield_withheld (ht : e.Tracks ids) (hx : ∀ id, x.2.id? = some id → id ∈ ids)
    (hc : e.Clear base (x :: rest)) :
    e.yield base x = (⟨x.1, x.2, base.append x.1, false⟩, e) := by
  obtain ⟨key, value⟩ := x
  cases hv : value.id? with
  | none => exact yield_scalar e base hv
  | some id =>
    obtain rfl := Tree.eq_container_of_id? hv
    exact yield_again ht (hx id rfl) hc

/-- A container that was not entered before is entered. -/
theorem yield_first (ht : e.Tracks ids) (base : Pointer) (key : Segment) {id : ContainerId}
    (hid : id ∉ ids) :
    e.yield base (key, .container id) =
      (⟨key, .container id, base.append key, true⟩, e.insert id (base.append key)) := by
  have hnone : e.get? id = none := by
    rw [← Option.not_isSome_iff_eq_none]
    exact fun hsome => hid ((ht id).mp hsome)
  simp only [Entrances.yield, Tree.id?, enter, hnone]

theorem tracks_empty : Tracks .empty [] := by
  intro id
  constructor
  · rintro ⟨⟩
  · rintro ⟨⟩

theorem Tracks.insert (ht : e.Tracks ids) (id : ContainerId) (p : Pointer) :
    Entrances.Tracks (e.insert id p) (id :: ids) := by
  intro i
  have hget : (e.insert id p).get? i = if id = i then some p else e.get? i :=
    OrderedMap.get?_insert e id i p
  rw [hget, List.mem_cons]
  by_cases heq : id = i
  · simp [heq]
  · rw [if_neg heq, ht i]
    simp [Ne.symm heq]

theorem within_insert (e : Entrances) (base : Pointer) (x : Segment × Tree) (id : ContainerId) :
    Entrances.Within e (e.insert id (base.append x.1)) base [x] := by
  intro i p hp
  have hget : (if id = i then some (base.append x.1) else e.get? i) = some p :=
    (OrderedMap.get?_insert e id i _).symm.trans hp
  split at hget
  · cases hget
    exact .inr ⟨x, List.mem_singleton_self x, List.prefix_refl _⟩
  · exact .inl hget

/-- The members of an entry are clear when the entry is entered. -/
theorem Clear.below (hc : e.Clear base (x :: rest)) (id : ContainerId)
    (members : List (Segment × Tree)) :
    Entrances.Clear (e.insert id (base.append x.1)) (base.append x.1) members := by
  intro i p hp y _ hpre
  have hget : (if id = i then some (base.append x.1) else e.get? i) = some p :=
    (OrderedMap.get?_insert e id i _).symm.trans hp
  rw [Pointer.tokens_append] at hpre
  split at hget
  · cases hget
    simpa using hpre.length_le
  · exact hc i p hget x List.mem_cons_self ((List.prefix_append _ _).trans hpre)

/-- A traversal that has entered its root alone is clear of all entries of the root. -/
theorem clear_root (root : ContainerId) (entries : List (Segment × Tree)) :
    Clear (OrderedMap.empty.insert root .root) .root entries := by
  intro id p hp x _ hpre
  have hroot : (if root = id then some Pointer.root else none) = some p :=
    (OrderedMap.get?_insert _ _ _ _).symm.trans hp
  split at hroot
  · cases hroot
    simpa using hpre.length_le
  · cases hroot

/-- What a traversal has entered after it yields an entry. -/
theorem tracks_yield (ht : e.Tracks ids) (hc : e.Clear base (x :: rest)) :
    (e.yield base x).2.Tracks (x.2.id?.toList ++ ids) ∧ e.Within (e.yield base x).2 base [x] := by
  obtain ⟨key, value⟩ := x
  cases hv : value.id? with
  | none =>
    rw [yield_scalar e base hv]
    exact ⟨ht, .refl e base _⟩
  | some id =>
    obtain rfl := Tree.eq_container_of_id? hv
    by_cases hid : id ∈ ids
    · rw [yield_again ht hid hc]
      refine ⟨fun i => ?_, .refl e base _⟩
      rw [ht i]
      simp only [Option.toList_some, List.singleton_append, List.mem_cons]
      exact ⟨.inr, fun h => h.elim (fun heq => heq ▸ hid) fun hmem => hmem⟩
    · rw [yield_first ht base key hid]
      exact ⟨ht.insert id _, within_insert e base (key, .container id) id⟩

end Entrances

end Lineage
