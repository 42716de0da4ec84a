import Lineage.Proofs.Tree.Unfolding

/-! Values that become trees and trees that become values. A tree that is built from a value has its
containers in a range of their own: those below a member come before those below the next one, and the
container itself comes last. So each container stands at one place, and the tree unfolds to the value. -/

namespace Lineage

/-- No object has two members of one name. -/
inductive Json.DistinctNames : Json → Prop
  | null : DistinctNames .null
  | bool (value : Bool) : DistinctNames (.bool value)
  | number (value : Number) : DistinctNames (.number value)
  | string (text : String) : DistinctNames (.string text)
  | array {items : List Json} (hitems : ∀ v ∈ items, DistinctNames v) : DistinctNames (.array items)
  | object {members : List (String × Json)} (hnames : (members.map Prod.fst).Nodup)
      (hvalues : ∀ m ∈ members, DistinctNames m.2) : DistinctNames (.object members)

namespace Heap

/-- All containers that a tree reaches are in a range, and each stands at one place. -/
structure Within (h : Heap) (lo hi : ContainerId) (t : Tree) : Prop where
  le : lo ≤ hi
  range : ∀ {id}, h.Reaches t (.container id) → lo ≤ id ∧ id < hi
  place : ∀ {id ss us}, h.follow? t ss = some (.container id) → h.follow? t us = some (.container id) →
    ss.map Segment.token = us.map Segment.token

/-- The containers below one member come before those below the next. -/
inductive Spread (h : Heap) : ContainerId → List (String × Tree) → ContainerId → Prop
  | nil {lo : ContainerId} : Spread h lo [] lo
  | cons {lo mid hi : ContainerId} {m : String × Tree} {ms : List (String × Tree)}
      (hm : h.Within lo mid m.2) (hrest : Spread h mid ms hi) : Spread h lo (m :: ms) hi

/-- A tree of new containers that is built from a value. -/
structure Builds (h : Heap) (v : Json) (t : Tree) (h' : Heap) : Prop where
  grows : h.Grows h'
  within : h'.Within h.size h'.size t
  unfolds : v.DistinctNames → h'.Unfolds t v

/-- Trees that are built one after the other from the values of members. -/
structure BuildsAll (h : Heap) (vs : List (String × Json)) (ms : List (String × Tree)) (h' : Heap) :
    Prop where
  grows : h.Grows h'
  spread : h'.Spread h.size ms h'.size
  unfolds : (∀ v ∈ vs, v.2.DistinctNames) → h'.UnfoldsAll ms vs

variable {h h' u : Heap} {t : Tree} {v j : Json} {id lo hi : ContainerId} {ms : List (String × Tree)}
  {vs : List (String × Json)}

theorem named_object (members : OrderedMap String Tree) :
    named (Container.object members).entries = members.entries := by
  rw [named, Container.entries, List.map_map]
  exact List.map_id _

/-- Only names that a container tells apart are written down. -/
theorem Unfolds.distinctNames (hj : h.Unfolds t j) : j.DistinctNames := by
  induction hj with
  | null => exact .null
  | bool value => exact .bool value
  | number value => exact .number value
  | string text => exact .string text
  | @container id vs hnames _ ih =>
    have hvalues : ∀ v ∈ vs, v.2.DistinctNames := by
      intro v hv
      have hlength : vs.length ≤ (h.members (.container id)).length := by
        have hmap := congrArg List.length hnames
        rw [List.length_map, List.length_map] at hmap
        exact Nat.le_of_eq hmap
      rw [← List.map_snd_zip hlength] at hv
      obtain ⟨p, hp, rfl⟩ := List.mem_map.mp hv
      exact ih p hp
    unfold Json.ofContainer
    split
    · refine .array fun v hv => ?_
      obtain ⟨m, hm, rfl⟩ := List.mem_map.mp hv
      exact hvalues m hm
    · refine .object ?_ hvalues
      rw [hnames, members, named, List.map_map]
      exact h.nodup_tokens_entries _

/-- A tree unfolds alike in heaps that agree on it. -/
theorem Unfolds.congr (hj : h.Unfolds t j)
    (hsame : ∀ id, h.Reaches t (.container id) → h'.get? id = h.get? id) : h'.Unfolds t j := by
  induction hj with
  | null => exact .null
  | bool value => exact .bool value
  | number value => exact .number value
  | string text => exact .string text
  | @container id vs hnames _ ih =>
    have hmembers : h'.members (.container id) = h.members (.container id) := by
      rw [members, members, Reaches.entries_eq hsame .self]
    have harray : h'.isArray (.container id) = h.isArray (.container id) := by
      rw [isArray, isArray, Reaches.container?_eq hsame .self]
    rw [← harray]
    refine .container (by rw [hmembers, hnames]) fun p hp => ?_
    rw [hmembers] at hp
    obtain ⟨x, hx, hxp⟩ := List.mem_map.mp (List.of_mem_zip hp).1
    refine ih p hp fun i hi => hsame i ?_
    rw [← hxp] at hi
    exact (Reaches.member .self hx).trans hi

theorem UnfoldsAll.congr (hall : h.UnfoldsAll ms vs)
    (hsame : ∀ m ∈ ms, ∀ id, h.Reaches m.2 (.container id) → h'.get? id = h.get? id) :
    h'.UnfoldsAll ms vs :=
  ((List.forall₂_and_left _ _).mpr ⟨hsame, hall⟩).imp fun _ _ hm => ⟨hm.2.1, hm.2.2.congr hm.1⟩

theorem within_scalar (ht : t.id? = none) (n : Nat) : h.Within n n t := by
  have hnone : ∀ {id}, ¬h.Reaches t (.container id) := by
    intro id hid
    rcases hid.eq_or_exists with rfl | ⟨x, hx, _⟩
    · cases ht
    · rw [entries, container?, ht] at hx
      cases hx
  exact ⟨Nat.le_refl n, fun hid => absurd hid hnone, fun hid => absurd (Reaches.self.follow? hid) hnone⟩

theorem Within.same (hw : h.Within lo hi t) (hsize : hi ≤ h.size) (hg : h.Grows h') :
    ∀ id, h.Reaches t (.container id) → h'.get? id = h.get? id :=
  fun id hid => hg.2 id (Nat.lt_of_lt_of_le (hw.range hid).2 hsize)

theorem Within.mono (hw : h.Within lo hi t) (hsize : hi ≤ h.size) (hg : h.Grows h') :
    h'.Within lo hi t where
  le := hw.le
  range hid := hw.range (hid.of_congr (hw.same hsize hg))
  place hss hus := by
    rw [Reaches.self.follow?_eq (hw.same hsize hg)] at hss hus
    exact hw.place hss hus

namespace Spread

theorem le (hs : h.Spread lo ms hi) : lo ≤ hi := by
  induction hs with
  | nil => exact Nat.le_refl _
  | cons hm _ ih => exact Nat.le_trans hm.le ih

theorem mono (hs : h.Spread lo ms hi) (hsize : hi ≤ h.size) (hg : h.Grows h') : h'.Spread lo ms hi := by
  induction hs with
  | nil => exact .nil
  | cons hm hrest ih => exact .cons (hm.mono (Nat.le_trans hrest.le hsize) hg) (ih hsize)

theorem within {m : String × Tree} (hs : h.Spread lo ms hi) (hm : m ∈ ms) :
    ∃ lo' hi', lo ≤ lo' ∧ hi' ≤ hi ∧ h.Within lo' hi' m.2 := by
  induction hs with
  | nil => cases hm
  | cons hhead hrest ih =>
    rcases List.mem_cons.mp hm with rfl | hm
    · exact ⟨_, _, Nat.le_refl _, hrest.le, hhead⟩
    · obtain ⟨lo', hi', hle, hle', hwithin⟩ := ih hm
      exact ⟨lo', hi', Nat.le_trans hhead.le hle, hle', hwithin⟩

theorem range {m : String × Tree} (hs : h.Spread lo ms hi) (hm : m ∈ ms)
    (hid : h.Reaches m.2 (.container id)) : lo ≤ id ∧ id < hi := by
  obtain ⟨lo', hi', hle, hle', hwithin⟩ := hs.within hm
  obtain ⟨hlo, hhi⟩ := hwithin.range hid
  exact ⟨Nat.le_trans hle hlo, Nat.lt_of_lt_of_le hhi hle'⟩

theorem same (hs : h.Spread lo ms hi) (hsize : hi ≤ h.size) (hg : h.Grows h') :
    ∀ m ∈ ms, ∀ id, h.Reaches m.2 (.container id) → h'.get? id = h.get? id :=
  fun _ hm id hid => hg.2 id (Nat.lt_of_lt_of_le (hs.range hm hid).2 hsize)

/-- A container is below one member only. -/
theorem unique {m m' : String × Tree} (hs : h.Spread lo ms hi) (hm : m ∈ ms) (hm' : m' ∈ ms)
    (hid : h.Reaches m.2 (.container id)) (hid' : h.Reaches m'.2 (.container id)) : m = m' := by
  induction hs with
  | nil => cases hm
  | cons hhead hrest ih =>
    rw [List.mem_cons] at hm hm'
    rcases hm with rfl | hm <;> rcases hm' with rfl | hm'
    · rfl
    · exact absurd (hrest.range hm' hid').1 (Nat.not_le_of_lt (hhead.range hid).2)
    · exact absurd (hrest.range hm hid).1 (Nat.not_le_of_lt (hhead.range hid').2)
    · exact ih hm hm'

/-- The container that comes after all its members. -/
theorem within_container (hs : h.Spread lo ms id) (hsub : h.members (.container id) ⊆ ms) :
    h.Within lo (id + 1) (.container id) where
  le := Nat.le_succ_of_le hs.le
  range hid := by
    rcases hid.eq_or_exists with heq | ⟨x, hx, hreach⟩
    · cases heq
      exact ⟨hs.le, Nat.lt_succ_self _⟩
    · obtain ⟨hlo, hhi⟩ := hs.range (hsub (mem_members hx)) hreach
      exact ⟨hlo, Nat.lt_succ_of_lt hhi⟩
  place {i ss us} hss hus := by
    have hmember : ∀ {s : Segment} {rest : List Segment},
        h.follow? (.container id) (s :: rest) = some (.container i) →
        ∃ w, (s.token, w) ∈ ms ∧ h.follow? w rest = some (.container i) ∧ h.Reaches w (.container i) := by
      intro s rest hfollow
      obtain ⟨w, hw, hrest⟩ := Option.bind_eq_some_iff.mp hfollow
      obtain ⟨e, he, htoken, rfl⟩ := exists_entry_of_member? hw
      exact ⟨e.2, htoken ▸ hsub (mem_members he), hrest, Reaches.self.follow? hrest⟩
    -- the container itself is not below its members
    have hbelow : ∀ {s : Segment} {rest : List Segment},
        h.follow? (.container id) (s :: rest) = some (.container i) → i ≠ id := by
      intro s rest hfollow
      obtain ⟨w, hw, _, hreach⟩ := hmember hfollow
      exact Nat.ne_of_lt (hs.range hw hreach).2
    cases ss with
    | nil =>
      cases us with
      | nil => rfl
      | cons s rest =>
        cases hss
        exact absurd rfl (hbelow hus)
    | cons s rest =>
      cases us with
      | nil =>
        cases hus
        exact absurd rfl (hbelow hss)
      | cons s' rest' =>
        obtain ⟨w, hw, hrest, hreach⟩ := hmember hss
        obtain ⟨w', hw', hrest', hreach'⟩ := hmember hus
        obtain ⟨htoken, rfl⟩ := Prod.mk.inj (hs.unique hw hw' hreach hreach')
        obtain ⟨_, _, _, _, hwithin⟩ := hs.within hw
        rw [List.map_cons, List.map_cons, htoken, hwithin.place hrest hrest']

end Spread

/-- Trees that are built one after the other do not meet. -/
theorem BuildsAll.cons {name : String} (hv : h.Builds v t u) (hrest : u.BuildsAll vs ms h') :
    h.BuildsAll ((name, v) :: vs) ((name, t) :: ms) h' where
  grows := hv.grows.trans hrest.grows
  spread := .cons (hv.within.mono (Nat.le_refl _) hrest.grows) hrest.spread
  unfolds hdistinct := by
    rw [List.forall_mem_cons] at hdistinct
    have hsame := hv.within.same (Nat.le_refl _) hrest.grows
    exact .cons ⟨rfl, (hv.unfolds hdistinct.1).congr hsame⟩ (hrest.unfolds hdistinct.2)

/-- A container is made of trees that were built before. If names are distinct, it has all of them. -/
theorem BuildsAll.container {c : Container} (hall : h.BuildsAll vs ms u)
    (hv : v = Json.ofContainer c.isArray vs) (hsub : named c.entries ⊆ ms)
    (hdistinct : v.DistinctNames → (∀ w ∈ vs, w.2.DistinctNames) ∧
      (vs.map Prod.fst = ms.map Prod.fst → named c.entries = ms)) :
    h.Builds v (.container u.size) (u.alloc c).2 := by
  have hgrows := u.grows_alloc c
  have hget : (u.alloc c).2.get? u.size = some c := by rw [get?_alloc, if_pos rfl]
  have hmembers : (u.alloc c).2.members (.container u.size) = named c.entries := by
    rw [members, entries_container hget]
  have harray : (u.alloc c).2.isArray (.container u.size) = c.isArray := isArray_container hget
  constructor
  case grows => exact hall.grows.trans hgrows
  case within =>
    rw [size_alloc]
    exact (hall.spread.mono (Nat.le_refl _) hgrows).within_container (by rwa [hmembers])
  case unfolds =>
    intro hnames
    obtain ⟨hvalues, heq⟩ := hdistinct hnames
    have hunfolds := hall.unfolds hvalues
    rw [hv, ← harray, unfolds_container_iff, hmembers, heq (unfoldsAll_iff.mp hunfolds).1]
    exact ⟨vs, hunfolds.congr (hall.spread.same (Nat.le_refl _) hgrows), rfl⟩

mutual

theorem addJson_builds (h : Heap) (v : Json) : h.Builds v (h.addJson v).1 (h.addJson v).2 :=
  match v with
  | .null => ⟨.refl h, within_scalar rfl _, fun _ => .null⟩
  | .bool value => ⟨.refl h, within_scalar rfl _, fun _ => .bool value⟩
  | .number value => ⟨.refl h, within_scalar rfl _, fun _ => .number value⟩
  | .string text => ⟨.refl h, within_scalar rfl _, fun _ => .string text⟩
  | .array items => by
    obtain ⟨vs, hvs, hall⟩ := addJsonItems_builds h 0 items
    refine hall.container (c := .array (h.addJsonItems items).1) ?_ (List.Subset.refl _) fun hdistinct => ?_
    · rw [← hvs]
      rfl
    · cases hdistinct with
      | array hitems =>
        rw [← hvs] at hitems
        exact ⟨fun w hw => hitems w.2 (List.mem_map_of_mem hw), fun _ => rfl⟩
  | .object members => by
    have hall := addJsonMembers_builds h members
    refine hall.container (c := .object (.ofList (h.addJsonMembers members).1)) rfl ?_ fun hdistinct => ?_
    · rw [named_object]
      exact fun e he => OrderedMap.mem_of_get?_ofList (OrderedMap.find_of_mem (OrderedMap.nodup _) he)
    · cases hdistinct with
      | object hnames hvalues =>
        refine ⟨hvalues, fun heq => ?_⟩
        rw [named_object, OrderedMap.entries_ofList_of_nodup (heq ▸ hnames)]

theorem addJsonItems_builds (h : Heap) (start : Nat) (items : List Json) :
    ∃ vs, vs.map Prod.snd = items ∧ h.BuildsAll vs
      (named (Container.indexed start (h.addJsonItems items).1)) (h.addJsonItems items).2 :=
  match items with
  | [] => ⟨[], rfl, .refl h, .nil, fun _ => .nil⟩
  | item :: rest => by
    have hitem := addJson_builds h item
    obtain ⟨vs, hvs, hall⟩ := addJsonItems_builds (h.addJson item).2 (start + 1) rest
    exact ⟨(_, item) :: vs, by rw [List.map_cons, hvs], .cons hitem hall⟩

theorem addJsonMembers_builds (h : Heap) (members : List (String × Json)) :
    h.BuildsAll members (h.addJsonMembers members).1 (h.addJsonMembers members).2 :=
  match members with
  | [] => ⟨.refl h, .nil, fun _ => .nil⟩
  | (_, value) :: rest =>
    .cons (addJson_builds h value) (addJsonMembers_builds (h.addJson value).2 rest)

end

/-- Writing down a tree fails exactly when it reaches a container that is reached from itself, and else
gives the value that the tree unfolds to. A value comes back from its tree, and the tree that is built
from what another one was written down as has each container at one place and is written down alike. -/
theorem toJson?_unfolding (h : Heap) (t : Tree) :
    (h.toJson? t = none ↔ ∃ id, h.Reaches t (.container id) ∧ h.Loops id) ∧
    (∀ j, h.toJson? t = some j ↔ h.Unfolds t j) ∧
    (∀ v : Json, v.DistinctNames → (h.addJson v).2.toJson? (h.addJson v).1 = some v) ∧
    ∀ j, h.toJson? t = some j → (h.addJson j).2.toJson? (h.addJson j).1 = some j ∧
      ∀ id p q, (h.addJson j).2.resolve? (h.addJson j).1 p = some (.container id) →
        (h.addJson j).2.resolve? (h.addJson j).1 q = some (.container id) → (p == q) = true := by
  have hback : ∀ v : Json, v.DistinctNames → (h.addJson v).2.toJson? (h.addJson v).1 = some v :=
    fun v hv => toJson?_eq_some_iff.mpr ((h.addJson_builds v).unfolds hv)
  refine ⟨toJson?_eq_none_iff, fun _ => toJson?_eq_some_iff, hback, fun j hj => ⟨?_, fun _ p q hp hq => ?_⟩⟩
  · exact hback j (toJson?_eq_some_iff.mp hj).distinctNames
  · exact Pointer.beq_iff.mpr ((h.addJson_builds j).within.place hp hq)

/-- An array under two names is written down twice, and becomes two arrays. -/
theorem toJson?_unfolding_twice :
    let h : Heap := ⟨#[.object (.ofList [("left", .container 1), ("right", .container 1)]),
      .array [.bool true]]⟩
    let j : Json := .object [("left", .array [.bool true]), ("right", .array [.bool true])]
    h.toJson? (.container 0) = some j ∧ (h.addJson j).2.size = 5 ∧
      (h.addJson j).2.toJson? (h.addJson j).1 = some j ∧
      ∀ id p q, (h.addJson j).2.resolve? (h.addJson j).1 p = some (.container id) →
        (h.addJson j).2.resolve? (h.addJson j).1 q = some (.container id) → (p == q) = true := by
  intro h j
  have hj : h.toJson? (.container 0) = some j := rfl
  obtain ⟨_, hunfolds, hback, hbuilt⟩ := toJson?_unfolding h (.container 0)
  exact ⟨hj, rfl, hback j ((hunfolds j).mp hj).distinctNames, (hbuilt j hj).2⟩

end Heap

end Lineage
