import Lineage.Proofs.Traversal.Entering
import Lineage.Proofs.Traversal.Pruning

/-! Traversals that come to an end. The walk through the members of each node, the loop over a stack of
open levels, and their bounded forms are all said to follow one enumeration, in which a container is
exposed exactly where it is held first. On every heap there is such an enumeration: below a container
that is exposed, one container less is left to be exposed. -/

namespace Lineage

namespace Heap

/-- The nodes at and below entries, when the containers `ids` were held before. A container is exposed
where it is held first, and `ids'` are the containers that were held by the end. -/
inductive Enumerates (h : Heap) :
    Pointer → List ContainerId → List (Segment × Tree) → List Node → List ContainerId → Prop
  | nil {base : Pointer} {ids : List ContainerId} : Enumerates h base ids [] [] ids
  | withheld {base : Pointer} {ids ids' : List ContainerId} {x : Segment × Tree}
      {rest : List (Segment × Tree)} {after : List Node}
      (hx : ∀ id, x.2.id? = some id → id ∈ ids) (hrest : Enumerates h base ids rest after ids') :
      Enumerates h base ids (x :: rest) (⟨x.1, x.2, base.append x.1, false⟩ :: after) ids'
  | exposed {base : Pointer} {ids ids₁ ids' : List ContainerId} {key : Segment} {id : ContainerId}
      {rest : List (Segment × Tree)} {below after : List Node} (hid : id ∉ ids)
      (hbelow : Enumerates h (base.append key) (id :: ids) (h.entries (.container id)) below ids₁)
      (hrest : Enumerates h base ids₁ rest after ids') :
      Enumerates h base ids ((key, .container id) :: rest)
        (⟨key, .container id, base.append key, true⟩ :: (below ++ after)) ids'

/-- The walk from a cursor: every node is followed by the walk through its members. -/
inductive WalksTo (h : Heap) : Cursor → Entrances → List Node → Entrances → Prop
  | done {c : Cursor} {e : Entrances} (hend : c.next? e = none) : WalksTo h c e [] e
  | next {c c' : Cursor} {e e₁ e₂ e₃ : Entrances} {n : Node} {below after : List Node}
      (hnext : c.next? e = some (n, c', e₁)) (hbelow : WalksTo h (h.children n) e₁ below e₂)
      (hafter : WalksTo h c' e₂ after e₃) : WalksTo h c e (n :: (below ++ after)) e₃

/-- The loop over a stack of open levels, innermost first, until no level is open. -/
inductive Drains (h : Heap) : List Cursor → Entrances → List Node → Prop
  | nil {e : Entrances} : Drains h [] e []
  | close {top : Cursor} {stack : List Cursor} {e : Entrances} {nodes : List Node}
      (hend : top.next? e = none) (hrest : Drains h stack e nodes) : Drains h (top :: stack) e nodes
  | yield {top top' : Cursor} {stack : List Cursor} {e e' : Entrances} {n : Node}
      {nodes : List Node} (hnext : top.next? e = some (n, top', e'))
      (hrest : Drains h (h.children n :: top' :: stack) e' nodes) :
      Drains h (top :: stack) e (n :: nodes)

variable {h : Heap} {base : Pointer} {ids ids' : List ContainerId} {entries : List (Segment × Tree)}
  {nodes : List Node} {e e' : Entrances} {c : Cursor} {stack : List Cursor} {depth : Nat}

/-- What was held stays held. -/
theorem Enumerates.subset (hen : h.Enumerates base ids entries nodes ids') : ids ⊆ ids' := by
  induction hen with
  | nil => exact List.Subset.refl _
  | withheld _ _ ih => exact ih
  | exposed _ _ _ ihbelow ihrest =>
    exact List.Subset.trans (List.subset_cons_self _ _) (List.Subset.trans ihbelow ihrest)

/-- Every heap has an enumeration of all entries. -/
theorem exists_enumerates (h : Heap) (base : Pointer) (ids : List ContainerId)
    (entries : List (Segment × Tree)) : ∃ nodes ids', h.Enumerates base ids entries nodes ids' := by
  induction hn : h.unyielded ids using Nat.strongRecOn generalizing base ids entries with
  | _ n ihn =>
    -- what follows an entry is enumerated with no more containers left, so it needs a bound only
    have hle : h.unyielded ids ≤ n := Nat.le_of_eq hn
    clear hn
    induction entries generalizing base ids with
    | nil => exact ⟨[], ids, .nil⟩
    | cons x rest ih =>
      by_cases hx : ∀ id, x.2.id? = some id → id ∈ ids
      · obtain ⟨after, ids', hafter⟩ := ih base ids hle
        exact ⟨_, ids', .withheld hx hafter⟩
      · push Not at hx
        obtain ⟨id, hvalue, hid⟩ := hx
        obtain ⟨key, value⟩ := x
        obtain rfl : value = .container id := Tree.eq_container_of_id? hvalue
        obtain ⟨below, ids₁, hbelow⟩ : ∃ below ids₁, h.Enumerates (base.append key) (id :: ids)
            (h.entries (.container id)) below ids₁ := by
          rcases Nat.lt_or_ge id h.size with hlt | hge
          · exact ihn _ (Nat.lt_of_lt_of_le (unyielded_cons_lt hlt hid) hle) _ _ _ rfl
          · rw [entries_of_size_le hge]
            exact ⟨[], id :: ids, .nil⟩
        have hgrow : ids ⊆ ids₁ := List.Subset.trans (List.subset_cons_self _ _) hbelow.subset
        obtain ⟨after, ids', hafter⟩ := ih base ids₁ ((unyielded_mono hgrow).trans hle)
        exact ⟨_, ids', .exposed hid hbelow hafter⟩

theorem walksTo_withheld {n : Node} (hn : n.exposed = false) (e : Entrances) :
    h.WalksTo (h.children n) e [] e := by
  refine .done ?_
  simp only [children, hn]
  rfl

theorem walkBelow_withheld {n : Node} (hn : n.exposed = false) (depth : Nat) (e : Entrances) :
    h.walkBelow depth n e = ([], e) := by
  cases depth <;> simp [walkBelow, hn]

/-- A traversal walks through entries with this result, also when it goes down `depth` levels only. By
then it has entered the containers `ids'`, and what is new among them was entered here. -/
structure Walked (h : Heap) (depth : Nat) (base : Pointer) (e : Entrances)
    (entries : List (Segment × Tree)) (nodes : List Node) (ids' : List ContainerId) (e' : Entrances) :
    Prop where
  walksTo : h.WalksTo { base, rest := entries } e nodes e'
  bounded : Entrances.walkEntries (h.walkBelow depth) base entries e = (nodes, e')
  tracks : e'.Tracks ids'
  within : e.Within e' base entries

theorem Walked.cons {x : Segment × Tree} {rest : List (Segment × Tree)} {n : Node}
    {below after : List Node} {e₁ e₂ e₃ : Entrances} (hyield : e.yield base x = (n, e₁))
    (hbelow : h.WalksTo (h.children n) e₁ below e₂) (hbounded : h.walkBelow depth n e₁ = (below, e₂))
    (hwithin : e.Within e₂ base [x]) (hafter : h.Walked depth base e₂ rest after ids' e₃) :
    h.Walked depth base e (x :: rest) (n :: (below ++ after)) ids' e₃ := by
  have hnext : Cursor.next? { base, rest := x :: rest } e = some (n, { base, rest }, e₁) := by
    simp only [Cursor.next?, hyield]
  refine ⟨.next hnext hbelow hafter.walksTo, ?_, hafter.tracks, hwithin.trans hafter.within⟩
  simp only [Entrances.walkEntries, hyield, hbounded, hafter.bounded, List.cons_append]

/-- A traversal that has entered nothing at or below the entries follows their enumeration. It goes down
no further than there are containers left to enter. -/
theorem Enumerates.exists_walked (hen : h.Enumerates base ids entries nodes ids') (ht : e.Tracks ids)
    (hc : e.Clear base entries) (hn : (entries.map (·.1.token)).Nodup)
    (hdepth : h.unyielded ids ≤ depth) : ∃ e', h.Walked depth base e entries nodes ids' e' := by
  induction hen generalizing e depth with
  | nil => exact ⟨e, .done rfl, rfl, ht, .refl _ _ _⟩
  | @withheld base ids ids' x rest after hx hrest ih =>
    have hyield := Entrances.yield_withheld ht hx hc
    have hwithin := (Entrances.tracks_yield ht hc).2
    rw [hyield] at hwithin
    obtain ⟨e', hafter⟩ := ih ht (hc.after hwithin hn) (List.nodup_cons.mp hn).2 hdepth
    exact ⟨e', .cons hyield (walksTo_withheld rfl e) (walkBelow_withheld rfl depth e) hwithin hafter⟩
  | @exposed base ids ids₁ ids' key id rest below after hid hbelow hrest ihbelow ihrest =>
    have hyield := Entrances.yield_first ht base key hid
    have hentered := (Entrances.tracks_yield ht hc).2
    rw [hyield] at hentered
    have ht₁ := ht.insert id (base.append key)
    have hc₁ := hc.below id (h.entries (.container id))
    obtain ⟨e₂, hwalk, hbounded, ht₂, hinside⟩ : ∃ e₂,
        h.WalksTo { base := base.append key, rest := h.entries (.container id) }
          (e.insert id (base.append key)) below e₂ ∧
        h.walkBelow depth ⟨key, .container id, base.append key, true⟩
          (e.insert id (base.append key)) = (below, e₂) ∧ e₂.Tracks ids₁ ∧
        Entrances.Within (e.insert id (base.append key)) e₂ (base.append key)
          (h.entries (.container id)) := by
      rcases Nat.lt_or_ge id h.size with hlt | hge
      · have hfewer := unyielded_cons_lt hlt hid
        obtain ⟨depth, rfl⟩ : ∃ d, depth = d + 1 := Nat.exists_eq_succ_of_ne_zero (by omega)
        obtain ⟨e₂, hwalked⟩ := ihbelow ht₁ hc₁ (h.nodup_tokens_entries _)
          (Nat.le_of_lt_succ (Nat.lt_of_lt_of_le hfewer hdepth))
        exact ⟨e₂, hwalked.walksTo, hwalked.bounded, hwalked.tracks, hwalked.within⟩
      · -- nothing is below a container that is not there, so the depth does not matter
        rw [entries_of_size_le hge] at hbelow ⊢
        cases hbelow
        refine ⟨_, .done rfl, ?_, ht₁, .refl _ _ _⟩
        cases depth with
        | zero => rfl
        | succ depth => simp [walkBelow, entries_of_size_le hge, Entrances.walkEntries]
    have hwithin := hentered.below hinside
    have hgrow : ids ⊆ ids₁ := List.Subset.trans (List.subset_cons_self _ _) hbelow.subset
    obtain ⟨e', hafter⟩ := ihrest ht₂ (hc.after hwithin hn) (List.nodup_cons.mp hn).2
      ((unyielded_mono hgrow).trans hdepth)
    exact ⟨e', .cons hyield hwalk hbounded hwithin hafter⟩

/-- The loop yields what the walk through its innermost level yields, and then goes on. -/
theorem WalksTo.drains (hw : h.WalksTo c e nodes e') {rest : List Node}
    (hd : h.Drains stack e' rest) : h.Drains (c :: stack) e (nodes ++ rest) := by
  induction hw generalizing stack rest with
  | done hend => exact .close hend hd
  | next hnext _ _ ihbelow ihafter =>
    rw [List.cons_append, List.append_assoc]
    exact .yield hnext (ihbelow (ihafter hd))

/-- Each node takes two steps of the loop, one to be yielded and one for its level to be closed, and each
level that is open takes one. -/
theorem Drains.drain_eq (hd : h.Drains stack e nodes) {steps : Nat}
    (hsteps : 2 * nodes.length + stack.length ≤ steps) : h.drain steps stack e = nodes := by
  induction hd generalizing steps with
  | nil => cases steps <;> rfl
  | close hend _ ih =>
    rw [List.length_cons] at hsteps
    obtain ⟨steps, rfl⟩ : ∃ k, steps = k + 1 := Nat.exists_eq_succ_of_ne_zero (by omega)
    simp only [drain, hend]
    exact ih (by omega)
  | yield hnext _ ih =>
    simp only [List.length_cons] at hsteps
    obtain ⟨steps, rfl⟩ : ∃ k, steps = k + 1 := Nat.exists_eq_succ_of_ne_zero (by omega)
    simp only [drain, hnext]
    exact congrArg _ (ih (by simp only [List.length_cons]; omega))

end Heap

end Lineage
