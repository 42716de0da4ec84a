import Lineage.Proofs.Run.Citations
import Lineage.Proofs.Run.Closure
import Lineage.Proofs.Tree.RoundTrip

/-! What a run has delivered. A run never takes a member away, and it writes only to containers that it has
registered. So a value that is made of other containers stays what it is, and once it is placed in the
output it stays where it is, whatever the run does next. Among such values are deep copies, which are
written down like the trees they are made of. -/

namespace Lineage

namespace Heap

variable {h h' : Heap} {t t' : Tree} {j : Json} {R : ContainerId → ContainerId → Prop}

/-- Entries that correspond to those of an unfolded container unfold alike. -/
theorem UnfoldsAll.of_corresponds {es es' : List (Segment × Tree)} {vs : List (String × Json)}
    (hes : List.Forall₂ (fun e e' => e.1 = e'.1 ∧ e.2.Corresponds R e'.2) es es')
    (hnames : vs.map Prod.fst = (named es).map Prod.fst)
    (hvalues : ∀ p ∈ (named es).zip vs, ∀ u, p.1.2.Corresponds R u → h'.Unfolds u p.2.2) :
    h'.UnfoldsAll (named es') vs := by
  induction hes generalizing vs with
  | nil =>
    cases vs with
    | nil => exact .nil
    | cons v vs => cases hnames
  | @cons e e' es es' he _ ih =>
    cases vs with
    | nil => cases hnames
    | cons v vs =>
      obtain ⟨hname, hrest⟩ := List.cons.inj hnames
      refine .cons ⟨?_, ?_⟩ (ih hrest fun p hp => hvalues p (List.mem_cons_of_mem _ hp))
      · show e'.1.token = v.1
        rw [hname, ← he.1]
      · exact hvalues ((e.1.token, e.2), v) List.mem_cons_self e'.2 he.2

/-- Isomorphic trees unfold to the same value. -/
theorem Isomorphic.unfolds (hiso : h.Isomorphic t h' t' R) (hj : h.Unfolds t j) : h'.Unfolds t' j := by
  have hall : ∀ {u : Tree} {j : Json}, h.Unfolds u j → ∀ u', u.Corresponds R u' → h'.Unfolds u' j := by
    intro u j hj
    induction hj with
    | null =>
      rintro u' (rfl : Tree.null = u')
      exact .null
    | bool value =>
      rintro u' (rfl : Tree.bool value = u')
      exact .bool value
    | number value =>
      rintro u' (rfl : Tree.number value = u')
      exact .number value
    | string text =>
      rintro u' (rfl : Tree.string text = u')
      exact .string text
    | container hnames _ ih =>
      intro u' hu'
      cases u' with
      | container i =>
        rw [← hiso.kinds hu', unfolds_container_iff]
        exact ⟨_, UnfoldsAll.of_corresponds (hiso.members hu') hnames ih, rfl⟩
      | null | bool _ | number _ | string _ => cases hu'
  exact hall hj t' hiso.trees

/-- What a tree of a closed heap reaches is there. -/
theorem Closed.has_of_reaches (hc : h.Closed) (ht : h.Has t) {u : Tree} (hu : h.Reaches t u) : h.Has u := by
  induction hu with
  | self => exact ht
  | @member u x _ hx => exact hc.entries u x hx

end Heap

namespace RunState

variable {s s' s'' : RunState} {p q : Proxy} {key : Segment} {origin : Pointer} {v : Tree} {j : Json}
  {path : List String} {id : ContainerId}

/-- A run that goes well: its registry and its mappings agree with its output, and whatever it names is
there. -/
structure Live (s : RunState) : Prop where
  sound : s.Sound
  whole : s.Whole

/-- The run goes on: it owns what it owned, keeps the members and mappings it had, and leaves alone what it
has not registered. -/
structure Advances (s s' : RunState) : Prop where
  live : s'.Live
  owns : ∀ p, s.Owns p → s'.Owns p
  root_eq : s'.run.root = s.run.root
  members : s.workspace.heap.Extends s'.workspace.heap
  others : ∀ id < s.workspace.heap.size, s.run.registry.get? id = none →
    s'.run.registry.get? id = none ∧ s'.workspace.heap.get? id = s.workspace.heap.get? id
  mappings : s.mappings ⊆ s'.mappings

theorem Advances.trans (h₁ : s.Advances s') (h₂ : s'.Advances s'') : s.Advances s'' where
  live := h₂.live
  owns p hp := h₂.owns p (h₁.owns p hp)
  root_eq := h₂.root_eq.trans h₁.root_eq
  members := h₁.members.trans h₂.members
  others id hid hnone := by
    obtain ⟨hnone', hget⟩ := h₁.others id hid hnone
    obtain ⟨c, hc⟩ : ∃ c, s.workspace.heap.get? id = some c := ⟨_, Array.getElem?_eq_getElem hid⟩
    obtain ⟨hnone'', hget'⟩ := h₂.others id (Heap.lt_size_of_get? (hget.trans hc)) hnone'
    exact ⟨hnone'', hget'.trans hget⟩
  mappings := List.Subset.trans h₁.mappings h₂.mappings

theorem Advances.size_le (hs : s.Advances s') : s.workspace.heap.size ≤ s'.workspace.heap.size := by
  by_contra hlt
  have hid := Nat.lt_of_not_le hlt
  obtain ⟨c, hc, _⟩ := hs.members _ _ (Array.getElem?_eq_getElem hid)
  exact Nat.lt_irrefl _ (Heap.lt_size_of_get? hc)

/-- Containers are built beside the run, or something else happens that is none of its business. -/
theorem Live.advances_beside (hs : s.Live) (hreg : s'.run.registry = s.run.registry)
    (hroot : s'.run.root = s.run.root) (htable : s'.run.table = s.run.table)
    (hmap : s'.mappings = s.mappings) (hg : s.workspace.heap.Grows s'.workspace.heap)
    (hi : s'.workspace.heap.Indexable) (hc : s'.workspace.heap.Closed) : s.Advances s' := by
  obtain ⟨hsound, howns⟩ := hs.sound.grows hreg hroot htable hmap hg hi
  refine ⟨⟨hsound, hc, fun id q hq => ?_⟩, howns, hroot, hg.extends, fun id hid hnone => ?_, ?_⟩
  · rw [hreg] at hq
    exact Nat.lt_of_lt_of_le (hs.whole.registered id q hq) hg.1
  · exact ⟨by rw [hreg, hnone], hg.2 id hid⟩
  · rw [hmap]
    exact List.Subset.refl _

theorem Live.refl (hs : s.Live) : s.Advances s :=
  hs.advances_beside rfl rfl rfl rfl (.refl _) hs.sound.placed.indexable hs.whole.closed

/-- A deep copy of something that exists is made beside the run. -/
theorem Live.duplicated (hs : s.Live) (hv : s.workspace.heap.Has v) : s.Advances (Run.duplicated s v) :=
  hs.advances_beside rfl rfl rfl rfl (Heap.grows_duplicate _ v) (hs.sound.placed.indexable.duplicate v)
    (hs.whole.closed.duplicate hv).1

/-- An operation writes through the proxy that it was given, and to no other container. -/
theorem Live.advances_of_effect (hs : s.Live) (ho : s.Owns p) (heff : Effect s p false s')
    (hw : s'.Whole) : s.Advances s' := by
  have hdirect : false = true → s.Owns p := fun h => Bool.noConfusion h
  obtain ⟨hsound, howns⟩ := hs.sound.keeps_of_effect ho.genuine hdirect heff
  obtain ⟨r, hr, _⟩ := ho.1
  have hne : ∀ id, s.run.registry.get? id = none → p.backing ≠ id := fun id hnone heq => by
    rw [heq, hnone] at hr
    cases hr
  refine ⟨⟨hsound, hw⟩, howns, heff.root_eq, extends_of_effect heff, fun id hid hnone => ?_, ?_⟩
  · cases heff with
    | grown hg _ => exact ⟨hnone, hg.2 id hid⟩
    | written hg _ hacc _ =>
      refine ⟨hnone, (Heap.get?_set _ _ _ _).trans ?_⟩
      rw [if_neg fun hh => hne id hnone hh.1]
      exact hg.2 id hid
    | allocated c _ _ _ hacc _ =>
      refine ⟨(OrderedMap.get?_insert _ _ _ _).trans ?_, (Heap.get?_set _ _ _ _).trans ?_⟩
      · rw [if_neg (Nat.ne_of_gt hid)]
        exact hnone
      · rw [if_neg fun hh => hne id hnone hh.1]
        exact (Heap.grows_alloc _ c).2 id hid
  · rcases recordsWrite_of_effect ho.genuine hdirect heff with hmap | ⟨top, leaves, hmap, _⟩
    · rw [hmap]
      exact List.Subset.refl _
    · rw [hmap]
      exact List.subset_append_left _ _

/-- The containers of a heap are there as they were, and none of them belongs to the run. -/
structure Beside (h : Heap) (s : RunState) : Prop where
  grows : h.Grows s.workspace.heap
  others : ∀ id < h.size, s.run.registry.get? id = none

theorem Beside.advances {h : Heap} (hb : Beside h s) (hs : s.Advances s') : Beside h s' where
  grows := ⟨Nat.le_trans hb.grows.1 hs.size_le, fun id hid =>
    ((hs.others id (Nat.lt_of_lt_of_le hid hb.grows.1) (hb.others id hid)).2).trans (hb.grows.2 id hid)⟩
  others id hid := (hs.others id (Nat.lt_of_lt_of_le hid hb.grows.1) (hb.others id hid)).1

/-- The tree has its value for good: it is made of containers that the run never writes to. -/
structure Settled (s : RunState) (v : Tree) (j : Json) : Prop where
  unfolds : s.workspace.heap.Unfolds v j
  others : ∀ id, s.workspace.heap.Reaches v (.container id) →
    id < s.workspace.heap.size ∧ s.run.registry.get? id = none

theorem Settled.advances (hv : s.Settled v j) (hs : s.Advances s') : s'.Settled v j := by
  have hsame : ∀ id, s.workspace.heap.Reaches v (.container id) →
      s'.workspace.heap.get? id = s.workspace.heap.get? id := fun id hid =>
    (hs.others id (hv.others id hid).1 (hv.others id hid).2).2
  refine ⟨hv.unfolds.congr hsame, fun id hid => ?_⟩
  have hid' := Heap.Reaches.of_congr hsame hid
  obtain ⟨hlt, hnone⟩ := hv.others id hid'
  obtain ⟨c, hc⟩ : ∃ c, s.workspace.heap.get? id = some c := ⟨_, Array.getElem?_eq_getElem hlt⟩
  exact ⟨Heap.lt_size_of_get? ((hsame id hid').trans hc), (hs.others id hlt hnone).1⟩

theorem Settled.has (hv : s.Settled v j) : s.workspace.heap.Has v := by
  intro id hid
  rw [Tree.eq_container_of_id? hid] at hv
  exact (hv.others id .self).1

theorem settled_scalar (hv : v.id? = none) (hj : s.workspace.heap.Unfolds v j) : s.Settled v j where
  unfolds := hj
  others id hid := by
    rcases hid.eq_or_exists with heq | ⟨x, hx, _⟩
    · rw [← heq] at hv
      cases hv
    · cases v with
      | container => cases hv
      | null | bool _ | number _ | string _ => cases hx

/-- What was there before the run is settled. -/
theorem Beside.settled {h : Heap} (hb : Beside h s) (hc : h.Closed) (hhas : h.Has v) (hj : h.Unfolds v j) :
    s.Settled v j := by
  have hlt : ∀ id, h.Reaches v (.container id) → id < h.size := fun id hid =>
    hc.has_of_reaches hhas hid id rfl
  have hsame : ∀ id, h.Reaches v (.container id) → s.workspace.heap.get? id = h.get? id := fun id hid =>
    hb.grows.2 id (hlt id hid)
  refine ⟨hj.congr hsame, fun id hid => ?_⟩
  have hid' := hlt id (Heap.Reaches.of_congr hsame hid)
  exact ⟨Nat.lt_of_lt_of_le hid' hb.grows.1, hb.others id hid'⟩

/-- The copy of a settled tree is settled. -/
theorem Live.settled_duplicate (hs : s.Live) (hv : s.Settled v j) :
    (Run.duplicated s v).Settled (s.workspace.heap.duplicate v).1 j := by
  obtain ⟨_, _, hrange, R, hiso⟩ := Heap.duplicate_isomorphic hs.whole.closed hv.has
  refine ⟨hiso.unfolds hv.unfolds, fun id hid => ⟨(hrange id hid).2, ?_⟩⟩
  rw [Option.eq_none_iff_forall_ne_some]
  exact fun q hq => Nat.not_lt_of_le (hrange id hid).1 (hs.whole.registered id q hq)

/-- The output has a settled value at a path. -/
def Delivered (s : RunState) (path : List String) (j : Json) : Prop :=
  ∃ v, s.workspace.heap.follow? s.run.root.tree (path.map .key) = some v ∧ s.Settled v j

theorem Delivered.advances (hd : s.Delivered path j) (hs : s.Advances s') : s'.Delivered path j := by
  obtain ⟨v, hv, hsettled⟩ := hd
  refine ⟨v, ?_, hsettled.advances hs⟩
  rw [hs.root_eq]
  exact hs.members.follow? hv

/-- What stands in a container of the run stands in the output. -/
theorem Live.delivered (hs : s.Live) (ho : s.Owns p) {name : String}
    (hm : s.memberAt p.backing name = some v) (hv : s.Settled v j) :
    s.Delivered (p.location.tokens ++ [name]) j := by
  refine ⟨v, ?_, hv⟩
  rw [List.map_append, Heap.follow?_append, hs.sound.placed.follow?_eq ho.1]
  exact (Option.bind_some ..).trans ((congrArg (Option.bind · _) hm).trans rfl)

/-- An operation of the run that succeeds: the run goes on with the same input and the same traversals. -/
structure Acts (s s' : RunState) : Prop extends Advances s s' where
  current_eq : s'.run.current = s.run.current
  traversals_eq : s'.workspace.traversals = s.workspace.traversals

theorem Acts.trans (h₁ : s.Acts s') (h₂ : s'.Acts s'') : s.Acts s'' :=
  ⟨h₁.toAdvances.trans h₂.toAdvances, h₂.current_eq.trans h₁.current_eq,
    h₂.traversals_eq.trans h₁.traversals_eq⟩

theorem Live.acts_of_effect (hs : s.Live) (ho : s.Owns p) (heff : Effect s p false s')
    (hw : s'.Whole) : s.Acts s' := by
  refine ⟨hs.advances_of_effect ho heff hw, heff.current_eq, ?_⟩
  cases heff <;> rfl

/-- A member was written. -/
structure Wrote (s : RunState) (p : Proxy) (key : Segment) (w : TaggedWrite) (s' : RunState) : Prop extends
    Acts s s' where
  vacant : s.memberAt p.backing key.token = none
  member : ∀ id name, s'.memberAt id name =
    if id = p.backing ∧ name = key.token then some w.value else s.memberAt id name
  mapping : ∀ origin, w.origin = some origin →
    p.topMapping key (Run.attributed s w) origin ∈ s'.mappings

theorem Live.write (hs : s.Live) (ho : s.Owns p) {w : TaggedWrite} (hv : s.workspace.heap.Has w.value)
    (hok : Run.write p key w s = .ok () s') : s.Wrote p key w s' := by
  have hacts : s.Acts s' := by
    refine hs.acts_of_effect ho ?_ ?_
    · have := Run.effect_write (s := s) p key w
      rwa [hok] at this
    · have := hs.whole.write p key hv
      rwa [hok] at this
  rcases Run.write_cases s p key w with ⟨e, herr⟩ | ⟨q, origin, c, c', _, hacc, hok'⟩
  · rw [herr] at hok
    cases hok
  · rw [hok'] at hok
    cases hok
    refine ⟨hacts, memberAt_eq_none_of_accepts hacc, memberAt_written hacc, fun origin' horigin => ?_⟩
    have heq : origin' = origin := Option.some.inj (horigin.symm.trans hacc.origin_eq)
    rw [heq, mappings_written ho.2 hacc]
    exact List.mem_append_right _ (Proxy.topMapping_mem_mappingsOf ..)

/-- A settled value that is written is delivered. -/
theorem Wrote.delivered {w : TaggedWrite} (hw : s.Wrote p key w s') (ho : s.Owns p)
    (hv : s.Settled w.value j) : s'.Delivered (p.location.tokens ++ [key.token]) j := by
  refine hw.live.delivered (hw.owns p ho) ?_ (hv.advances hw.toAdvances)
  rw [hw.member, if_pos ⟨rfl, rfl⟩]

theorem Live.place (hs : s.Live) (ho : s.Owns p) {recurse : Bool} (hv : s.Settled v j)
    (hok : Run.place p key origin v recurse s = .ok () s') :
    s.Acts s' ∧ s'.Delivered (p.location.tokens ++ [key.token]) j := by
  have hw := hs.write ho hv.has hok
  exact ⟨hw.toActs, hw.delivered ho hv⟩

/-- A copy has the value of what was copied. -/
theorem Live.placeCopy (hs : s.Live) (ho : s.Owns p) {recurse : Bool} (hv : s.Settled v j)
    (hok : Run.placeCopy p key origin v recurse s = .ok () s') :
    s.Acts s' ∧ s'.Delivered (p.location.tokens ++ [key.token]) j := by
  have hcopied := hs.duplicated hv.has
  obtain ⟨hacts, hdelivered⟩ :=
    hcopied.live.place (hcopied.owns p ho) (hs.settled_duplicate hv) hok
  exact ⟨⟨hcopied.trans hacts.toAdvances, hacts.current_eq, hacts.traversals_eq⟩, hdelivered⟩

/-- A new object belongs to the run and is empty. -/
theorem Live.allocateObject (hs : s.Live) (ho : s.Owns p)
    (hok : Run.allocateObject p key origin s = .ok q s') :
    s.Acts s' ∧ s'.Owns q ∧ q.location = p.location.append key ∧
      ∀ name, s'.memberAt q.backing name = none := by
  have hallocate : Run.allocate .emptyObject p key origin s = .ok q s' := hok
  have heff : Effect s p false (after (Run.allocate .emptyObject p key origin s)) :=
    Run.effect_allocate rfl p key origin
  have hwhole := hs.whole.allocate (c := .emptyObject) rfl p key origin
  rw [hallocate] at heff hwhole
  have howns := ho.genuine.owns_of_answers heff.table_eq (Run.answers_of_allocate hallocate)
  rcases Run.allocate_cases s .emptyObject p key origin with
    ⟨e, herr⟩ | ⟨e, herr⟩ | ⟨_, _, _, _, _, _, _, _, hacc, hok'⟩
  · rw [hallocate] at herr
    cases herr
  · rw [hallocate] at herr
    cases herr
  · refine ⟨hs.acts_of_effect ho heff hwhole, howns, ?_⟩
    rw [hallocate] at hok'
    cases hok'
    exact ⟨rfl, memberAt_new hs.sound rfl ho hacc⟩

/-- An opened object belongs to the run, whether it is new or not. -/
theorem Live.openObject (hs : s.Live) (ho : s.Owns p) (hok : Run.openObject p key origin s = .ok q s') :
    s.Acts s' ∧ s'.Owns q ∧ q.location = p.location.append key := by
  have hopen : Run.reopenOrAllocate .emptyObject p key origin s = .ok q s' := hok
  rcases Run.reopenOrAllocate_cases s .emptyObject p key origin with
    heq | ⟨e, herr⟩ | ⟨_, _, _, _, _, _, hok'⟩
  · rw [hopen] at heq
    obtain ⟨hacts, howns, hlocation, _⟩ := hs.allocateObject ho heq.symm
    exact ⟨hacts, howns, hlocation⟩
  · rw [hopen] at herr
    cases herr
  · have hanswers := Run.answers_of_reopenOrAllocate hopen
    rw [hopen] at hok'
    cases hok'
    exact ⟨⟨hs.refl, rfl, rfl⟩, ho.genuine.owns_of_answers rfl hanswers, rfl⟩

end RunState

end Lineage
