import Lineage.Proofs.Traversal.Copies
import Lineage.Proofs.Tree.Renaming

/-! Copies that are made later. A walk gives its new containers the identities that come next. Where others
were made before, all of them come that much later, and nothing else about the copy changes. It names
its own containers only, and so it is the same tree wherever they stand. -/

namespace Lineage

section Rename

variable (f : ContainerId → ContainerId)

def CopiedNode.rename (n : CopiedNode) : CopiedNode := { n with copy := n.copy.rename f }

/-- The copy with its containers under other identities. -/
def Pruned.rename (out : Pruned) : Pruned where
  members := out.members.map fun m => (m.1, m.2.rename f)
  nodes := out.nodes.map (CopiedNode.rename f)
  containers := out.containers.map (Container.rename f)

theorem Tree.rename_of_scalar {t : Tree} (ht : t.id? = none) : t.rename f = t := by
  cases t with
  | container id => cases ht
  | _ => rfl

theorem Container.rename_extend (c : Container) (ms : List (Segment × Tree)) :
    (c.extend ms).rename f = (c.rename f).extend (ms.map fun m => (m.1, m.2.rename f)) := by
  cases c with
  | object members =>
    induction ms generalizing members with
    | nil => rfl
    | cons m rest ih =>
      rw [extend_cons, List.map_cons, extend_cons]
      refine (ih _).trans ?_
      simp only [rename, extend, List.foldl_cons, List.foldl_nil, OrderedMap.insert_mapValues]
  | array items => simp [rename, extend]

theorem Pruned.rename_scalar (spot : Spot) (key : Segment) {value : Tree} (hvalue : value.id? = none)
    (after : Pruned) :
    (Pruned.scalar spot key value after).rename f = .scalar spot key value (after.rename f) := by
  simp only [scalar, rename, List.map_cons, CopiedNode.rename, Spot.node,
    Tree.rename_of_scalar f hvalue]

theorem Pruned.rename_container (spot : Spot) (key : Segment) (id fresh : ContainerId) (isArray : Bool)
    (below after : Pruned) :
    (Pruned.container spot key id fresh isArray below after).rename f =
      .container spot key id (f fresh) isArray (below.rename f) (after.rename f) := by
  simp only [container, rename, List.map_cons, List.map_append, CopiedNode.rename, Spot.node,
    Tree.rename, Container.rename_extend, Container.rename_emptyOf]

end Rename

namespace Heap

variable {h H : Heap} {claims : Segment → Pointer → Tree → Bool} {spot : Spot} {pass pass' : Pass}
  {entries : List (Segment × Tree)} {out : Pruned}

/-- The walk does not look at the identities that it gives. -/
theorem Prunes.shift (hp : h.Prunes claims spot pass entries out pass') (k : Nat) :
    h.Prunes claims spot { pass with fresh := pass.fresh + k } entries (out.rename (· + k))
      { pass' with fresh := pass'.fresh + k } := by
  induction hp with
  | nil => exact .nil
  | claimed hclaim _ ih => exact .claimed hclaim ih
  | scalar hclaim hvalue _ ih =>
    rw [Pruned.rename_scalar _ _ _ hvalue]
    exact .scalar hclaim hvalue ih
  | again hclaim hid _ ih =>
    rw [Pruned.rename_container]
    rw [Nat.add_right_comm] at ih
    exact .again hclaim hid ih
  | first hclaim hid _ _ ihbelow ihrest =>
    rw [Pruned.rename_container]
    rw [Nat.add_right_comm] at ihbelow
    exact .first hclaim hid ihbelow ihrest

/-- The tree is a scalar, or one of the containers that the walk has made. -/
def Made (pass pass' : Pass) (t : Tree) : Prop :=
  ∀ id, t.id? = some id → pass.fresh ≤ id ∧ id < pass'.fresh

theorem Prunes.made_of_mem (hp : h.Prunes claims spot pass entries out pass') {m : Segment × Tree}
    (hm : m ∈ out.members) : Made pass pass' m.2 :=
  hp.forall_members (fun t hscalar id hid => nomatch hscalar.symm.trans hid)
    (fun id hle hlt => by rintro _ ⟨⟩; exact ⟨hle, hlt⟩) m hm

/-- A copy holds nothing but what was made for it. -/
theorem Prunes.made_of_reaches (hp : h.Prunes claims spot pass entries out pass') (hi : h.Indexable)
    (hheld : H.Holds pass.fresh out.containers) {t u : Tree} (ht : Made pass pass' t)
    (hu : H.Reaches t u) : Made pass pass' u := by
  have hall := hp.forall_containers hi (P := Made pass pass')
    (fun t hscalar id hid => nomatch hscalar.symm.trans hid)
    (fun id hle hlt => by rintro _ ⟨⟩; exact ⟨hle, hlt⟩)
  induction hu with
  | self => exact ht
  | @member u x _ hx ih =>
    cases hid : u.id? with
    | none => simp [Heap.entries, container?, hid] at hx
    | some id =>
      obtain rfl := Tree.eq_container_of_id? hid
      obtain ⟨hle, hlt⟩ := ih id rfl
      obtain ⟨k, rfl⟩ := Nat.exists_eq_add_of_le hle
      rw [hp.fresh_eq] at hlt
      have hk : k < out.containers.length := Nat.lt_of_add_lt_add_left hlt
      have hget := hheld k _ (List.getElem?_eq_getElem hk)
      rw [entries_container hget] at hx
      exact (hall _ (List.getElem_mem hk)).2 x hx

/-- No container is reached from both trees. -/
def ShareNothing (h : Heap) (t u : Tree) : Prop :=
  ∀ i, h.Reaches t (.container i) → ¬h.Reaches u (.container i)

/-- What is copied later shares nothing with what was copied before. -/
theorem Prunes.shareNothing (hp : h.Prunes claims spot pass entries out pass') (hi : h.Indexable)
    (hheld : H.Holds pass.fresh out.containers) {spot₂ : Spot} {pass₂ : Pass}
    {entries₂ : List (Segment × Tree)} {out₂ : Pruned}
    (hp₂ : h.Prunes claims spot₂ pass' entries₂ out₂ pass₂)
    (hheld₂ : H.Holds pass'.fresh out₂.containers) {m n : Segment × Tree} (hm : m ∈ out.members)
    (hn : n ∈ out₂.members) : H.ShareNothing m.2 n.2 := by
  intro i hmi hni
  have hbefore := (hp.made_of_reaches hi hheld (hp.made_of_mem hm) hmi i rfl).2
  have hafter := (hp₂.made_of_reaches hi hheld₂ (hp₂.made_of_mem hn) hni i rfl).1
  exact Nat.not_lt.mpr hafter hbefore

/-- The members of a copy share nothing. -/
theorem Prunes.pairwise_shareNothing (hp : h.Prunes claims spot pass entries out pass') (hi : h.Indexable)
    (hheld : H.Holds pass.fresh out.containers) :
    out.members.Pairwise fun m n => H.ShareNothing m.2 n.2 := by
  induction hp with
  | nil => exact .nil
  | claimed _ _ ih => exact ih hheld
  | @scalar spot pass _ key value _ _ hclaim hvalue hrest ih =>
    have hhead : h.Prunes claims spot pass [(key, value)] (.scalar spot key value {}) pass :=
      .scalar hclaim hvalue .nil
    have hnone : H.Holds pass.fresh [] := fun _ _ hc => nomatch hc
    refine List.pairwise_cons.mpr ⟨fun n hn => ?_, ih hheld⟩
    exact hhead.shareNothing hi hnone hrest hheld List.mem_cons_self hn
  | @again spot pass _ key id _ after hclaim hid hrest ih =>
    have hhead : h.Prunes claims spot pass [(key, .container id)]
        (.container spot key id pass.fresh (h.isArray (.container id)) {} {})
        { pass with fresh := pass.fresh + 1 } := .again hclaim hid .nil
    have hown : H.Holds pass.fresh [(Container.emptyOf (h.isArray (.container id))).extend []] :=
      Holds.left hheld
    refine List.pairwise_cons.mpr ⟨fun n hn => ?_, ih hheld.tail⟩
    exact hhead.shareNothing hi hown hrest hheld.tail List.mem_cons_self hn
  | @first spot pass pass₁ _ key id _ below after hclaim hid hbelow hrest _ ih =>
    have hhead : h.Prunes claims spot pass [(key, .container id)]
        (.container spot key id pass.fresh (h.isArray (.container id)) below {}) pass₁ :=
      .first hclaim hid hbelow .nil
    have hleft : H.Holds pass.fresh
        ((Container.emptyOf (h.isArray (.container id))).extend below.members :: below.containers) :=
      Holds.left (show H.Holds pass.fresh ((_ :: below.containers) ++ after.containers) from hheld)
    have hown : H.Holds pass.fresh
        (Pruned.container spot key id pass.fresh (h.isArray (.container id)) below {}).containers := by
      simpa [Pruned.container] using hleft
    have hafter := hheld.tail.right
    rw [← hbelow.fresh_eq] at hafter
    refine List.pairwise_cons.mpr ⟨fun n hn => ?_, ih hafter⟩
    exact hhead.shareNothing hi hown hrest hafter List.mem_cons_self hn

/-- Where the containers of a copy come later, its members are the same trees. -/
theorem Prunes.isomorphic_shift (hp : h.Prunes claims spot pass entries out pass') (hi : h.Indexable)
    {H' : Heap} {k : Nat} (hheld : H.Holds pass.fresh out.containers)
    (hheld' : H'.Holds (pass.fresh + k) (out.containers.map (Container.rename (· + k))))
    {m : Segment × Tree} (hm : m ∈ out.members) :
    ∃ R, H.Isomorphic m.2 H' (m.2.rename (· + k)) R := by
  refine ⟨_, isomorphic_rename (fun id hid => ?_) fun _ _ => Nat.add_right_cancel⟩
  obtain ⟨hle, hlt⟩ := hp.made_of_reaches hi hheld (hp.made_of_mem hm) hid id rfl
  obtain ⟨i, rfl⟩ := Nat.exists_eq_add_of_le hle
  rw [hp.fresh_eq] at hlt
  have hi : i < out.containers.length := Nat.lt_of_add_lt_add_left hlt
  have hget : out.containers[i]? = some out.containers[i] := List.getElem?_eq_getElem hi
  have hget' : (out.containers.map (Container.rename (· + k)))[i]? =
      some (out.containers[i].rename (· + k)) := by rw [List.getElem?_map, hget, Option.map_some]
  rw [hheld i _ hget, Nat.add_right_comm, hheld' i _ hget', Option.map_some]

end Heap

end Lineage
