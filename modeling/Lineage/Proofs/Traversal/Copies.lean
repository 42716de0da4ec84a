import Lineage.Proofs.Traversal.Pruning

/-! What pruned copies are like. Where the containers of a copy stand in a heap, the nodes of the walk
are the places of the copy: each leads to what was copied there, no two are one place, and there is no
other place. Each stands for a place of the source as well. -/

namespace Lineage

namespace Container

variable {c : Container} {ms : List (Segment × Tree)} {m : Segment × Tree} {s : Segment} {v : Tree}

/-- The members go into the container, one after the other. -/
def Takes (c : Container) : List (Segment × Tree) → Prop
  | [] => True
  | m :: rest => c.add? m.1 m.2 = some (c.extend [m]) ∧ (c.extend [m]).Takes rest

theorem Takes.member?_of_some (h : c.Takes ms) (hs : c.member? s = some v) :
    (c.extend ms).member? s = some v := by
  induction ms generalizing c with
  | nil => simpa using hs
  | cons m rest ih =>
    obtain ⟨hadd, hrest⟩ := h
    rw [extend_cons]
    refine ih hrest ?_
    have hnone := member?_eq_none_of_add? hadd
    have hne : s.token ≠ m.1.token := by
      intro heq
      rw [← c.member?_congr heq, hs] at hnone
      cases hnone
    rw [member?_add? hadd, if_neg hne, hs]

theorem Takes.member?_of_mem (h : c.Takes ms) (hm : m ∈ ms) :
    (c.extend ms).member? m.1 = some m.2 := by
  induction ms generalizing c with
  | nil => cases hm
  | cons x rest ih =>
    obtain ⟨hadd, hrest⟩ := h
    rw [extend_cons]
    rcases List.mem_cons.mp hm with rfl | hm
    · refine hrest.member?_of_some ?_
      rw [member?_add? hadd, if_pos rfl]
    · exact ih hrest hm

/-- The container has no other members than those that were there and those that were added. -/
theorem Takes.exists_of_member? (h : c.Takes ms) (hs : (c.extend ms).member? s = some v) :
    c.member? s = some v ∨ ∃ m ∈ ms, m.1.token = s.token ∧ m.2 = v := by
  induction ms generalizing c with
  | nil => exact .inl (by simpa using hs)
  | cons x rest ih =>
    obtain ⟨hadd, hrest⟩ := h
    rw [extend_cons] at hs
    rcases ih hrest hs with hold | ⟨m, hm, heq⟩
    · rw [member?_add? hadd] at hold
      split at hold
      · rename_i htoken
        exact .inr ⟨x, List.mem_cons_self, htoken.symm, Option.some.inj hold⟩
      · exact .inl hold
    · exact .inr ⟨m, List.mem_cons_of_mem _ hm, heq⟩

theorem Takes.member?_eq_none (h : c.Takes ms) (hm : m ∈ ms) : c.member? m.1 = none := by
  induction ms generalizing c with
  | nil => cases hm
  | cons x rest ih =>
    obtain ⟨hadd, hrest⟩ := h
    rcases List.mem_cons.mp hm with rfl | hm
    · exact member?_eq_none_of_add? hadd
    · have hnone := ih hrest hm
      rw [member?_add? hadd] at hnone
      split at hnone
      · cases hnone
      · exact hnone

theorem Takes.nodup_tokens (h : c.Takes ms) : (ms.map (·.1.token)).Nodup := by
  induction ms generalizing c with
  | nil => exact .nil
  | cons x rest ih =>
    obtain ⟨hadd, hrest⟩ := h
    refine List.nodup_cons.mpr ⟨fun hmem => ?_, ih hrest⟩
    obtain ⟨m, hm, htoken⟩ := List.mem_map.mp hmem
    have hnone := hrest.member?_eq_none hm
    rw [member?_add? hadd, if_pos htoken] at hnone
    cases hnone

theorem Takes.append (h : c.Takes ms) {ns : List (Segment × Tree)} (hns : (c.extend ms).Takes ns) :
    c.Takes (ms ++ ns) := by
  induction ms generalizing c with
  | nil => simpa using hns
  | cons x rest ih =>
    rw [extend_cons] at hns
    exact ⟨h.1, ih h.2 hns⟩

theorem Takes.indexable (h : c.Takes ms) (hc : c.Indexable) : (c.extend ms).Indexable := by
  induction ms generalizing c with
  | nil => simpa using hc
  | cons x rest ih =>
    rw [extend_cons]
    exact ih h.2 (hc.add? h.1)

/-- A container holds only what it held and what was added. -/
theorem Takes.exists_of_mem_entries (h : c.Takes ms) {e : Segment × Tree}
    (he : e ∈ (c.extend ms).entries) : (∃ x ∈ c.entries, x.2 = e.2) ∨ ∃ m ∈ ms, m.2 = e.2 := by
  induction ms generalizing c with
  | nil => exact .inl ⟨e, by simpa using he, rfl⟩
  | cons x rest ih =>
    rw [extend_cons] at he
    rcases ih h.2 he with ⟨y, hy, hye⟩ | ⟨m, hm, hme⟩
    · rcases value_of_add? h.1 hy with hyx | ⟨z, hz, hzy⟩
      · exact .inr ⟨x, List.mem_cons_self, hyx.symm.trans hye⟩
      · exact .inl ⟨z, hz, hzy.trans hye⟩
    · exact .inr ⟨m, List.mem_cons_of_mem _ hm, hme⟩

/-- An empty container has room for the entries of any container of its kind. -/
theorem room_emptyOf (hc : c.Indexable) :
    (emptyOf c.isArray).Room (if c.isArray then some 0 else none) c.entries := by
  cases c with
  | object members => exact fun _ _ => rfl
  | array items =>
    refine ⟨rfl, ?_⟩
    rw [Nat.zero_add]
    exact Nat.le_trans (Nat.le_of_eq (length_indexed 0 items)) hc

theorem member?_emptyOf (isArray : Bool) (s : Segment) : (emptyOf isArray).member? s = none :=
  member?_of_size_eq_zero (size_emptyOf isArray) s

end Container

namespace Heap

variable {h H : Heap} {claims : Segment → Pointer → Tree → Bool} {spot : Spot} {pass pass' : Pass}
  {entries : List (Segment × Tree)} {out : Pruned}

/-- The containers stand in the heap, from an identity on. -/
def Holds (h : Heap) (id : ContainerId) (cs : List Container) : Prop :=
  ∀ i c, cs[i]? = some c → h.get? (id + i) = some c

theorem holds_append (h : Heap) (cs : List Container) : (h.append cs).Holds h.size cs := by
  intro i c hc
  rw [get?_append, if_neg (Nat.not_lt.mpr (Nat.le_add_right _ _)), Nat.add_sub_cancel_left, hc]

theorem Holds.head {id : ContainerId} {c : Container} {cs : List Container}
    (hh : h.Holds id (c :: cs)) : h.get? id = some c := hh 0 c rfl

theorem Holds.tail {id : ContainerId} {c : Container} {cs : List Container}
    (hh : h.Holds id (c :: cs)) : h.Holds (id + 1) cs := by
  intro i d hd
  have hget := hh (i + 1) d hd
  rwa [Nat.add_comm i 1, ← Nat.add_assoc] at hget

theorem Holds.left {id : ContainerId} {cs ds : List Container} (hh : h.Holds id (cs ++ ds)) :
    h.Holds id cs := by
  intro i c hc
  have hi : i < cs.length := (List.getElem?_eq_some_iff.mp hc).1
  refine hh i c ?_
  rw [List.getElem?_append_left hi, hc]

theorem Holds.right {id : ContainerId} {cs ds : List Container} (hh : h.Holds id (cs ++ ds)) :
    h.Holds (id + cs.length) ds := by
  intro i d hd
  rw [Nat.add_assoc]
  refine hh (cs.length + i) d ?_
  rw [List.getElem?_append_right (Nat.le_add_right _ _), Nat.add_sub_cancel_left, hd]

theorem resolve?_append {t u : Tree} {p : Pointer} (hp : h.resolve? t p = some u) (s : Segment) :
    h.resolve? t (p.append s) = h.member? u s := by
  have hp' : h.follow? t p.segments = some u := hp
  rw [resolve?, Pointer.append, follow?_append, hp', Option.bind_some, follow?]
  cases h.member? u s <;> rfl

/-- An empty container has room for the entries of a container of its kind. -/
theorem room_entries (hi : h.Indexable) (t : Tree) :
    (Container.emptyOf (h.isArray t)).Room (if h.isArray t then some 0 else none)
      (h.entries t) := by
  unfold isArray entries
  cases hc : h.container? t with
  | none => exact fun _ hx => absurd hx List.not_mem_nil
  | some c =>
    obtain ⟨id, _, hid⟩ := Option.bind_eq_some_iff.mp hc
    exact c.room_emptyOf (hi id c hid)

theorem Prunes.takes (hp : h.Prunes claims spot pass entries out pass') {c : Container}
    (hroom : c.Room spot.number entries) (hn : (entries.map (·.1.token)).Nodup) :
    c.Takes out.members := by
  induction hp generalizing c with
  | nil => trivial
  | claimed _ _ ih => exact ih hroom.skip (List.nodup_cons.mp hn).2
  | scalar _ _ _ ih | again _ _ _ ih =>
    exact ⟨hroom.add? _, ih (hroom.next hn _) (List.nodup_cons.mp hn).2⟩
  | first _ _ _ _ _ ih =>
    exact ⟨hroom.add? _, ih (hroom.next hn _) (List.nodup_cons.mp hn).2⟩

/-- What is copied below a container goes into an empty one of its kind. -/
theorem Prunes.takes_emptyOf (hi : h.Indexable) {key : Segment} {t : Tree}
    (hp : h.Prunes claims (spot.inside key (h.isArray t)) pass (h.entries t) out pass') :
    (Container.emptyOf (h.isArray t)).Takes out.members :=
  hp.takes (h.room_entries hi t) (h.nodup_tokens_entries t)

theorem Prunes.fresh_le (hp : h.Prunes claims spot pass entries out pass') :
    pass.fresh ≤ pass'.fresh := by
  rw [hp.fresh_eq]
  exact Nat.le_add_right _ _

/-- Copies are scalars and new containers. -/
theorem Prunes.forall_members (hp : h.Prunes claims spot pass entries out pass') {P : Tree → Prop}
    (hscalar : ∀ t, t.id? = none → P t)
    (hnew : ∀ id, pass.fresh ≤ id → id < pass'.fresh → P (.container id)) :
    ∀ m ∈ out.members, P m.2 := by
  induction hp with
  | nil => exact fun m hm => absurd hm List.not_mem_nil
  | claimed _ _ ih => exact ih hnew
  | scalar _ hvalue _ ih => exact List.forall_mem_cons.mpr ⟨hscalar _ hvalue, ih hnew⟩
  | again _ _ hrest ih =>
    refine List.forall_mem_cons.mpr ⟨hnew _ (Nat.le_refl _) (Nat.lt_of_succ_le hrest.fresh_le), ?_⟩
    exact ih fun id hid => hnew id (Nat.le_of_succ_le hid)
  | first _ _ hbelow hrest _ ih =>
    have hle := hbelow.fresh_le
    refine List.forall_mem_cons.mpr
      ⟨hnew _ (Nat.le_refl _) (Nat.lt_of_succ_le (hle.trans hrest.fresh_le)), ?_⟩
    exact ih fun id hid => hnew id (Nat.le_of_succ_le (hle.trans hid))

theorem forall_of_takes {c : Container} (hc : c.size = 0) {ms : List (Segment × Tree)}
    (ht : c.Takes ms) {P : Tree → Prop} (hms : ∀ m ∈ ms, P m.2) :
    (c.extend ms).Indexable ∧ ∀ e ∈ (c.extend ms).entries, P e.2 := by
  refine ⟨ht.indexable (Container.indexable_of_size_eq_zero hc), fun e he => ?_⟩
  rcases ht.exists_of_mem_entries he with ⟨x, hx, _⟩ | ⟨m, hm, hme⟩
  · rw [Container.entries_of_size_eq_zero hc] at hx
    cases hx
  · exact hme ▸ hms m hm

/-- The new containers hold copies only. -/
theorem Prunes.forall_containers (hp : h.Prunes claims spot pass entries out pass')
    (hi : h.Indexable) {P : Tree → Prop} (hscalar : ∀ t, t.id? = none → P t)
    (hnew : ∀ id, pass.fresh ≤ id → id < pass'.fresh → P (.container id)) :
    ∀ c ∈ out.containers, c.Indexable ∧ ∀ e ∈ c.entries, P e.2 := by
  induction hp with
  | nil => exact fun c hc => absurd hc List.not_mem_nil
  | claimed _ _ ih | scalar _ _ _ ih => exact ih hnew
  | again _ _ _ ih =>
    have hempty (c : Container) : c.Takes [] := trivial
    refine List.forall_mem_cons.mpr ⟨?_, ih fun id hid => hnew id (Nat.le_of_succ_le hid)⟩
    exact forall_of_takes (Container.size_emptyOf _) (hempty _) (List.forall_mem_nil _)
  | first _ _ hbelow hrest ihbelow ihrest =>
    have hbelow' := fun id hid hlt =>
      hnew id (Nat.le_of_succ_le hid) (Nat.lt_of_lt_of_le hlt hrest.fresh_le)
    have hrest' := fun id hid => hnew id (Nat.le_of_succ_le (hbelow.fresh_le.trans hid))
    refine List.forall_mem_cons.mpr ⟨?_, List.forall_mem_append.mpr ⟨ihbelow hbelow', ihrest hrest'⟩⟩
    exact forall_of_takes (Container.size_emptyOf _) (hbelow.takes_emptyOf hi)
      (hbelow.forall_members hscalar hbelow')

/-- What was copied came from where the walk found it. -/
theorem Prunes.origins (hp : h.Prunes claims spot pass entries out pass') (hi : h.Indexable)
    {root source : Tree} (hsource : h.resolve? root spot.source = some source)
    (hentries : ∀ e ∈ entries, h.member? source e.1 = some e.2) :
    ∀ n ∈ out.nodes, h.resolve? root n.origin = some n.value := by
  induction hp generalizing source with
  | nil => exact fun n hn => absurd hn List.not_mem_nil
  | claimed _ _ ih => exact ih hsource fun e he => hentries e (List.mem_cons_of_mem _ he)
  | scalar _ _ _ ih =>
    intro n hn
    rcases List.mem_cons.mp hn with rfl | hn
    · exact (resolve?_append hsource _).trans (hentries _ List.mem_cons_self)
    · exact ih hsource (fun e he => hentries e (List.mem_cons_of_mem _ he)) n hn
  | again _ _ _ ih =>
    intro n hn
    rcases List.mem_cons.mp hn with rfl | hn
    · exact (resolve?_append hsource _).trans (hentries _ List.mem_cons_self)
    · exact ih hsource (fun e he => hentries e (List.mem_cons_of_mem _ he)) n hn
  | first _ _ _ _ ihbelow ihrest =>
    have hhead := (resolve?_append hsource _).trans (hentries _ List.mem_cons_self)
    intro n hn
    rcases List.mem_cons.mp hn with rfl | hn
    · exact hhead
    · rcases List.mem_append.mp hn with hn | hn
      · exact ihbelow hhead (fun e he => member?_of_mem_entries hi he) n hn
      · exact ihrest hsource (fun e he => hentries e (List.mem_cons_of_mem _ he)) n hn

/-- Where the containers of the copy stand, its nodes are found at their places. -/
theorem Prunes.resolves (hp : h.Prunes claims spot pass entries out pass') (hi : h.Indexable)
    {root parent : Tree} (hheld : H.Holds pass.fresh out.containers)
    (hparent : H.resolve? root spot.copy = some parent)
    (hmembers : ∀ m ∈ out.members, H.member? parent m.1 = some m.2) :
    ∀ n ∈ out.nodes, H.resolve? root n.generated = some n.copy := by
  induction hp generalizing parent with
  | nil => exact fun n hn => absurd hn List.not_mem_nil
  | claimed _ _ ih => exact ih hheld hparent hmembers
  | scalar _ _ _ ih =>
    intro n hn
    rcases List.mem_cons.mp hn with rfl | hn
    · exact (resolve?_append hparent _).trans (hmembers _ List.mem_cons_self)
    · exact ih hheld hparent (fun m hm => hmembers m (List.mem_cons_of_mem _ hm)) n hn
  | again _ _ _ ih =>
    intro n hn
    rcases List.mem_cons.mp hn with rfl | hn
    · exact (resolve?_append hparent _).trans (hmembers _ List.mem_cons_self)
    · exact ih hheld.tail hparent (fun m hm => hmembers m (List.mem_cons_of_mem _ hm)) n hn
  | first _ _ hbelow _ ihbelow ihrest =>
    have hhead := (resolve?_append hparent _).trans (hmembers _ List.mem_cons_self)
    have htakes := hbelow.takes_emptyOf hi
    intro n hn
    rcases List.mem_cons.mp hn with rfl | hn
    · exact hhead
    · rcases List.mem_append.mp hn with hn | hn
      · refine ihbelow hheld.tail.left hhead (fun m hm => ?_) n hn
        rw [member?_container hheld.head]
        exact htakes.member?_of_mem hm
      · have hafter := hheld.tail.right
        rw [← hbelow.fresh_eq] at hafter
        exact ihrest hafter hparent (fun m hm => hmembers m (List.mem_cons_of_mem _ hm)) n hn

/-- Whatever is found at or below a member of the copy is a node of the walk. -/
theorem Prunes.exists_node (hp : h.Prunes claims spot pass entries out pass') (hi : h.Indexable)
    (hheld : H.Holds pass.fresh out.containers) {m : Segment × Tree} (hm : m ∈ out.members)
    {rest : List Segment} {v : Tree} (hv : H.follow? m.2 rest = some v) :
    ∃ n ∈ out.nodes, n.generated.tokens =
      spot.copy.tokens ++ m.1.token :: rest.map Segment.token := by
  induction hp generalizing m rest with
  | nil => cases hm
  | claimed _ _ ih => exact ih hheld hm hv
  | @scalar spot _ _ key value _ _ _ hvalue _ ih =>
    rcases List.mem_cons.mp hm with rfl | hm
    · refine ⟨_, List.mem_cons_self, ?_⟩
      cases rest with
      | nil => exact Pointer.tokens_append _ _
      | cons s rest =>
        -- nothing is found below a scalar
        obtain ⟨u, hu, _⟩ := Option.bind_eq_some_iff.mp hv
        obtain ⟨id, _, rfl, _⟩ := get?_of_member? hu
        cases hvalue
    · obtain ⟨n, hn, htokens⟩ := ih hheld hm hv
      exact ⟨n, List.mem_cons_of_mem _ hn, htokens⟩
  | again _ _ _ ih =>
    rcases List.mem_cons.mp hm with rfl | hm
    · refine ⟨_, List.mem_cons_self, ?_⟩
      cases rest with
      | nil => exact Pointer.tokens_append _ _
      | cons s rest =>
        -- the copy is empty
        obtain ⟨u, hu, _⟩ := Option.bind_eq_some_iff.mp hv
        rw [member?_container hheld.head, Container.extend_nil, Container.member?_emptyOf] at hu
        cases hu
    · obtain ⟨n, hn, htokens⟩ := ih hheld.tail hm hv
      exact ⟨n, List.mem_cons_of_mem _ hn, htokens⟩
  | first _ _ hbelow _ ihbelow ihrest =>
    rcases List.mem_cons.mp hm with rfl | hm
    · cases rest with
      | nil => exact ⟨_, List.mem_cons_self, Pointer.tokens_append _ _⟩
      | cons s rest =>
        obtain ⟨u, hu, hrest⟩ := Option.bind_eq_some_iff.mp hv
        rw [member?_container hheld.head] at hu
        rcases (hbelow.takes_emptyOf hi).exists_of_member? hu with hu | ⟨m, hm, htoken, rfl⟩
        · rw [Container.member?_emptyOf] at hu
          cases hu
        · obtain ⟨n, hn, htokens⟩ := ihbelow hheld.tail.left hm hrest
          refine ⟨n, List.mem_cons_of_mem _ (List.mem_append_left _ hn), ?_⟩
          simpa [Spot.inside, htoken] using htokens
    · have hafter := hheld.tail.right
      rw [← hbelow.fresh_eq] at hafter
      obtain ⟨n, hn, htokens⟩ := ihrest hafter hm hv
      exact ⟨n, List.mem_cons_of_mem _ (List.mem_append_right _ hn), htokens⟩

/-- A node of the walk stands at or below a member of the copy. -/
theorem Prunes.exists_member (hp : h.Prunes claims spot pass entries out pass') {n : CopiedNode}
    (hn : n ∈ out.nodes) : ∃ m ∈ out.members, ∃ rest,
      n.generated.tokens = spot.copy.tokens ++ m.1.token :: rest := by
  induction hp with
  | nil => cases hn
  | claimed _ _ ih => exact ih hn
  | scalar _ _ _ ih | again _ _ _ ih =>
    rcases List.mem_cons.mp hn with rfl | hn
    · exact ⟨_, List.mem_cons_self, [], Pointer.tokens_append _ _⟩
    · obtain ⟨m, hm, hrest⟩ := ih hn
      exact ⟨m, List.mem_cons_of_mem _ hm, hrest⟩
  | first _ _ _ _ ihbelow ihrest =>
    rcases List.mem_cons.mp hn with rfl | hn
    · exact ⟨_, List.mem_cons_self, [], Pointer.tokens_append _ _⟩
    · rcases List.mem_append.mp hn with hn | hn
      · obtain ⟨m, _, rest, htokens⟩ := ihbelow hn
        refine ⟨_, List.mem_cons_self, m.1.token :: rest, ?_⟩
        rw [htokens]
        simp [Spot.inside]
      · obtain ⟨m, hm, hrest⟩ := ihrest hn
        exact ⟨m, List.mem_cons_of_mem _ hm, hrest⟩

/-- Nothing is copied to a place outside the members of the copy. -/
theorem Prunes.generated_ne (hp : h.Prunes claims spot pass entries out pass') {token : String}
    (hnew : token ∉ out.members.map (·.1.token)) {n : CopiedNode} (hn : n ∈ out.nodes)
    (rest : List String) : n.generated.tokens ≠ spot.copy.tokens ++ token :: rest := by
  intro heq
  obtain ⟨m, hm, rest', htokens⟩ := hp.exists_member hn
  rw [heq] at htokens
  have hsame := (List.cons.inj (List.append_cancel_left htokens)).1
  exact hnew (hsame ▸ List.mem_map_of_mem (f := fun x : Segment × Tree => x.1.token) hm)

/-- What is copied below a member is below it in the copy. -/
theorem Prunes.exists_inside {key : Segment} {isArray : Bool}
    (hp : h.Prunes claims (spot.inside key isArray) pass entries out pass') {n : CopiedNode}
    (hn : n ∈ out.nodes) : ∃ token rest,
      n.generated.tokens = spot.copy.tokens ++ (spot.key key).token :: token :: rest := by
  obtain ⟨m, _, rest, htokens⟩ := hp.exists_member hn
  refine ⟨m.1.token, rest, ?_⟩
  rw [htokens]
  simp [Spot.inside]

/-- No two nodes of the walk are copied to one place. -/
theorem Prunes.pairwise_generated (hp : h.Prunes claims spot pass entries out pass')
    (hi : h.Indexable) (hn : (out.members.map (·.1.token)).Nodup) :
    out.nodes.Pairwise fun m n => m.generated.tokens ≠ n.generated.tokens := by
  induction hp with
  | nil => exact .nil
  | claimed _ _ ih => exact ih hn
  | scalar _ _ hrest ih | again _ _ hrest ih =>
    obtain ⟨hkey, hn⟩ := List.nodup_cons.mp hn
    refine List.pairwise_cons.mpr ⟨fun n hmem heq => ?_, ih hn⟩
    exact hrest.generated_ne hkey hmem [] (heq.symm.trans (Pointer.tokens_append _ _))
  | first _ _ hbelow hrest ihbelow ihrest =>
    obtain ⟨hkey, hn⟩ := List.nodup_cons.mp hn
    refine List.pairwise_cons.mpr ⟨fun n hmem heq => ?_, List.pairwise_append.mpr ⟨?_, ihrest hn, ?_⟩⟩
    · have hhead := heq.symm.trans (Pointer.tokens_append _ _)
      rcases List.mem_append.mp hmem with hmem | hmem
      · obtain ⟨token, rest, htokens⟩ := hbelow.exists_inside hmem
        rw [htokens] at hhead
        simp at hhead
      · exact hrest.generated_ne hkey hmem [] hhead
    · exact ihbelow (hbelow.takes_emptyOf hi).nodup_tokens
    · intro m hm n hmem heq
      obtain ⟨token, rest, htokens⟩ := hbelow.exists_inside hm
      exact hrest.generated_ne hkey hmem (token :: rest) (heq.symm.trans htokens)

end Heap

end Lineage
