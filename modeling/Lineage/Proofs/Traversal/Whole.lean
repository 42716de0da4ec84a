import Lineage.Proofs.Traversal.Faithful
import Lineage.Proofs.Traversal.Sharing
import Lineage.Proofs.Tree.Unfolding

/-! Whole copies. A walk that claims nothing visits the nodes of a complete traversal, and its copies
have the members of what they were copied from where the traversal exposes them, and none elsewhere.
The copy is written down like its source exactly when every copy has as many members as its original. -/

namespace Lineage

namespace Container

variable {c : Container} {ms : List (Segment × Tree)}

theorem Takes.named_entries (h : c.Takes ms) :
    named (c.extend ms).entries = named c.entries ++ named ms := by
  induction ms generalizing c with
  | nil => simp [named]
  | cons m rest ih =>
    rw [extend_cons, ih h.2, named_of_add? h.1, named_cons, List.append_assoc]
    rfl

end Container

theorem tokens_named (entries : List (Segment × Tree)) :
    (named entries).map Prod.fst = (entries.map Prod.fst).map Segment.token := by
  simp [named, Function.comp_def]

/-- Values of containers are told apart by their members. -/
theorem Json.ofContainer_inj {isArray : Bool} {vs ws : List (String × Json)}
    (htokens : vs.map Prod.fst = ws.map Prod.fst) :
    ofContainer isArray vs = ofContainer isArray ws ↔ vs = ws := by
  refine ⟨fun heq => ?_, fun heq => by rw [heq]⟩
  cases isArray with
  | false => exact Json.object.inj heq
  | true =>
    have hvalues : vs.map Prod.snd = ws.map Prod.snd := Json.array.inj heq
    have hzip : ∀ us : List (String × Json), us = (us.map Prod.fst).zip (us.map Prod.snd) :=
      fun us => List.zip_of_prod rfl rfl
    rw [hzip vs, hzip ws, htokens, hvalues]

namespace Heap

variable {h H : Heap} {claims : Segment → Pointer → Tree → Bool} {spot : Spot} {pass pass' : Pass}
  {entries : List (Segment × Tree)} {out : Pruned}

theorem length_members (h : Heap) (t : Tree) : (h.members t).length = h.length t := by
  rw [members, named, List.length_map, length_entries]

theorem UnfoldsAll.tokens_eq {ms : List (String × Tree)} {vs : List (String × Json)}
    (hall : h.UnfoldsAll ms vs) : vs.map Prod.fst = ms.map Prod.fst := (unfoldsAll_iff.mp hall).1

theorem UnfoldsAll.length_eq {ms : List (String × Tree)} {vs : List (String × Json)}
    (hall : h.UnfoldsAll ms vs) : vs.length = ms.length := (List.Forall₂.length_eq hall).symm

theorem UnfoldsAll.exists_cons {e : Segment × Tree} {vs : List (String × Json)}
    (hall : h.UnfoldsAll (named (e :: entries)) vs) :
    ∃ v ws, vs = (e.1.token, v) :: ws ∧ h.Unfolds e.2 v ∧ h.UnfoldsAll (named entries) ws := by
  cases hall with
  | @cons _ v _ ws hv hrest =>
    obtain ⟨_, v⟩ := v
    obtain ⟨rfl, hv⟩ := hv
    exact ⟨v, ws, rfl, hv, hrest⟩

theorem unfoldsAll_cons_iff {name : String} {t : Tree} {v : Json} {ms : List (String × Tree)}
    {ws : List (String × Json)} :
    h.UnfoldsAll ((name, t) :: ms) ((name, v) :: ws) ↔ h.Unfolds t v ∧ h.UnfoldsAll ms ws := by
  rw [UnfoldsAll, List.forall₂_cons]
  exact and_congr_left fun _ => and_iff_right rfl

section Copy

variable {id : ContainerId} {isArray : Bool} {ms : List (Segment × Tree)}
  (hget : H.get? id = some ((Container.emptyOf isArray).extend ms))
include hget

theorem isArray_copy : H.isArray (.container id) = isArray := by
  simp [Heap.isArray, container?, Tree.id?, hget, Container.isArray_extend]

theorem members_copy (htakes : (Container.emptyOf isArray).Takes ms) :
    H.members (.container id) = named ms := by
  rw [members, entries_container hget, htakes.named_entries,
    Container.entries_of_size_eq_zero (Container.size_emptyOf isArray)]
  rfl

theorem length_copy (htakes : (Container.emptyOf isArray).Takes ms) :
    H.length (.container id) = ms.length := by
  rw [← length_members, members_copy hget htakes, named, List.length_map]

/-- The copy of a container unfolds like the container when its members unfold like those of the
container. -/
theorem unfolds_copy_iff {vs : List (String × Json)} (htakes : (Container.emptyOf isArray).Takes ms)
    (htokens : vs.map Prod.fst = (named ms).map Prod.fst) :
    H.Unfolds (.container id) (Json.ofContainer isArray vs) ↔ H.UnfoldsAll (named ms) vs := by
  rw [unfolds_container_iff, members_copy hget htakes, isArray_copy hget]
  constructor
  · rintro ⟨ws, hws, heq⟩
    rw [Json.ofContainer_inj (htokens.trans hws.tokens_eq.symm)] at heq
    rwa [heq]
  · exact fun hvs => ⟨vs, hvs, rfl⟩

omit hget in
/-- A copy without members unfolds like a container without members only. -/
theorem unfolds_empty_copy_iff {vs : List (String × Json)}
    (hget : H.get? id = some ((Container.emptyOf isArray).extend [])) :
    H.Unfolds (.container id) (Json.ofContainer isArray vs) ↔ vs = [] := by
  rw [unfolds_container_iff, members_copy hget trivial, isArray_copy hget]
  constructor
  · rintro ⟨ws, ⟨⟩, heq⟩
    cases isArray with
    | false => exact Json.object.inj heq
    | true => exact List.map_eq_nil_iff.mp (Json.array.inj heq)
  · rintro rfl
    exact ⟨[], .nil, rfl⟩

end Copy

/-- A node of a walk that claims nothing is a node of the traversal. Its copy has the members that the
traversal exposes. -/
def CopiedFrom (h H : Heap) (n : Node) (c : CopiedNode) : Prop :=
  c.origin = n.pointer ∧ c.value = n.value ∧
    H.length c.copy = if n.exposed then h.length n.value else 0

theorem length_scalar {t : Tree} (ht : t.id? = none) : h.length t = 0 := by
  simp [Heap.length, container?, ht]

theorem Prunes.length_members (hp : h.Prunes claims spot pass entries out pass')
    (hclaims : ∀ key p v, claims key p v = false) (horder : InOrder spot.number entries) :
    out.members.length = entries.length := by
  have hlength := congrArg List.length (hp.keys_eq hclaims horder)
  rwa [List.length_map, List.length_map] at hlength

/-- A walk that claims nothing copies members under their tokens. -/
theorem Prunes.tokens_eq (hp : h.Prunes claims spot pass entries out pass')
    (hclaims : ∀ key p v, claims key p v = false) (horder : InOrder spot.number entries)
    {vs : List (String × Json)} (hvs : h.UnfoldsAll (named entries) vs) :
    vs.map Prod.fst = (named out.members).map Prod.fst := by
  rw [hvs.tokens_eq, tokens_named, tokens_named, hp.keys_eq hclaims horder]

/-- A walk that claims nothing visits the nodes of a traversal. -/
theorem Prunes.enumerates (hp : h.Prunes claims spot pass entries out pass') (hi : h.Indexable)
    (hclaims : ∀ key p v, claims key p v = false) (hheld : H.Holds pass.fresh out.containers) :
    ∃ nodes, h.Enumerates spot.source pass.yielded entries nodes pass'.yielded ∧
      List.Forall₂ (h.CopiedFrom H) nodes out.nodes := by
  induction hp with
  | nil => exact ⟨[], .nil, .nil⟩
  | claimed hclaim =>
    rw [hclaims] at hclaim
    cases hclaim
  | scalar _ hvalue _ ih =>
    obtain ⟨nodes, hen, hall⟩ := ih hheld
    refine ⟨_, .withheld (fun id hid => ?_) hen, .cons ⟨rfl, rfl, length_scalar hvalue⟩ hall⟩
    rw [hvalue] at hid
    cases hid
  | again _ hid _ ih =>
    obtain ⟨nodes, hen, hall⟩ := ih hheld.tail
    refine ⟨_, .withheld ?_ hen, .cons ⟨rfl, rfl, length_copy hheld.head trivial⟩ hall⟩
    rintro _ ⟨⟩
    exact hid
  | first _ hid hbelow _ ihbelow ihrest =>
    have hafter := hheld.tail.right
    rw [← hbelow.fresh_eq] at hafter
    obtain ⟨nodes₁, hen₁, hall₁⟩ := ihbelow hheld.tail.left
    obtain ⟨nodes₂, hen₂, hall₂⟩ := ihrest hafter
    refine ⟨_, .exposed hid hen₁ hen₂, .cons ⟨rfl, rfl, ?_⟩ (List.rel_append hall₁ hall₂)⟩
    rw [if_pos rfl, ← h.length_entries, ← hbelow.length_members hclaims (h.inOrder_entries _)]
    exact length_copy hheld.head (hbelow.takes_emptyOf hi)

/-- Copies have as many members as their originals exactly when the traversal withholds none. -/
theorem forall_length_iff {nodes : List Node} {copies : List CopiedNode}
    (hall : List.Forall₂ (h.CopiedFrom H) nodes copies) :
    (∀ c ∈ copies, H.length c.copy = h.length c.value) ↔ ∀ n ∈ nodes, h.isPruned n = false := by
  induction hall with
  | nil => simp
  | @cons n c _ _ hc _ ih =>
    obtain ⟨_, hvalue, hlength⟩ := hc
    have hhead : H.length c.copy = h.length c.value ↔ h.isPruned n = false := by
      rw [hlength, hvalue, ← Bool.not_eq_true, isPruned_eq]
      cases n.exposed with
      | true => simp
      | false =>
        cases hid : n.value.id? with
        | none =>
          rw [length_scalar hid]
          simp
        | some id =>
          rw [Tree.eq_container_of_id? hid]
          simp [eq_comm]
    simp only [List.forall_mem_cons, hhead, ih]

/-- Where nothing is claimed, copies unfold like their originals exactly when each has as many members
as its original. -/
theorem Prunes.unfoldsAll_iff (hp : h.Prunes claims spot pass entries out pass') (hi : h.Indexable)
    (hclaims : ∀ key p v, claims key p v = false) (hheld : H.Holds pass.fresh out.containers)
    (horder : InOrder spot.number entries) {vs : List (String × Json)}
    (hvs : h.UnfoldsAll (named entries) vs) :
    H.UnfoldsAll (named out.members) vs ↔ ∀ c ∈ out.nodes, H.length c.copy = h.length c.value := by
  induction hp generalizing vs with
  | nil =>
    cases hvs
    simp [UnfoldsAll, named]
  | claimed hclaim =>
    rw [hclaims] at hclaim
    cases hclaim
  | @scalar spot _ _ key value _ _ _ hvalue _ ih =>
    have hkey : spot.key key = key := horder.keyFor_eq
    obtain ⟨v, ws, rfl, hv, hrest⟩ := hvs.exists_cons
    have hhead : H.Unfolds value v := (unfolds_scalar_iff hvalue).mp hv
    simp [Pruned.scalar, unfoldsAll_cons_iff, hkey, hhead, ih hheld horder.next hrest, Spot.node,
      length_scalar hvalue]
  | @again spot pass _ key id _ _ _ _ _ ih =>
    have hkey : spot.key key = key := horder.keyFor_eq
    obtain ⟨v, ws, rfl, hv, hrest⟩ := hvs.exists_cons
    obtain ⟨us, hus, rfl⟩ := unfolds_container_iff.mp hv
    have hlength : us.length = h.length (.container id) := hus.length_eq.trans (h.length_members _)
    have hempty : H.length (.container pass.fresh) = 0 := length_copy hheld.head trivial
    have hhead : H.Unfolds (.container pass.fresh) (Json.ofContainer (h.isArray (.container id)) us) ↔
        H.length (.container pass.fresh) = h.length (.container id) := by
      rw [unfolds_empty_copy_iff hheld.head, hempty, ← hlength, ← List.length_eq_zero_iff, eq_comm]
    simp [Pruned.container, unfoldsAll_cons_iff, hkey, hhead, ih hheld.tail horder.next hrest,
      Spot.node]
  | @first spot pass pass₁ _ key id _ below _ _ _ hbelow _ ihbelow ihrest =>
    have hkey : spot.key key = key := horder.keyFor_eq
    have hinside := h.inOrder_entries (.container id)
    have hafter := hheld.tail.right
    rw [← hbelow.fresh_eq] at hafter
    obtain ⟨v, ws, rfl, hv, hrest⟩ := hvs.exists_cons
    obtain ⟨us, hus, rfl⟩ := unfolds_container_iff.mp hv
    have htokens := hbelow.tokens_eq hclaims hinside hus
    have hhead : H.Unfolds (.container pass.fresh) (Json.ofContainer (h.isArray (.container id)) us) ↔
        ∀ c ∈ below.nodes, H.length c.copy = h.length c.value := by
      rw [unfolds_copy_iff hheld.head (hbelow.takes_emptyOf hi) htokens]
      exact ihbelow hheld.tail.left hinside hus
    have hlength : H.length (.container pass.fresh) = h.length (.container id) := by
      rw [length_copy hheld.head (hbelow.takes_emptyOf hi), hbelow.length_members hclaims hinside,
        length_entries]
    simp [Pruned.container, unfoldsAll_cons_iff, hkey, hhead, hlength,
      ihrest hafter horder.next hrest, Spot.node, or_imp, forall_and]

end Heap

end Lineage
