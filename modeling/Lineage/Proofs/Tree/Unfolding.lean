import Lineage.Proofs.Supply
import Lineage.Proofs.Tree.Reachable
import Lineage.Tree.Conversion

/-! Trees as JSON values. What a tree unfolds to is given rule by rule: scalars are themselves, and the
value of a container is made of those of its members, in order and wherever the container stands. A tree
has one value at most. It has one exactly when no container that it reaches is reached from itself: the
members of a container unfold to smaller values than the container, and going down on a path that opens
each container once comes to an end. -/

namespace Lineage

/-- The value of a container with these members. -/
def Json.ofContainer (isArray : Bool) (members : List (String × Json)) : Json :=
  if isArray then .array (members.map Prod.snd) else .object members

/-- Entries under their tokens. -/
def named (entries : List (Segment × Tree)) : List (String × Tree) :=
  entries.map fun e => (e.1.token, e.2)

@[simp] theorem named_cons (e : Segment × Tree) (entries : List (Segment × Tree)) :
    named (e :: entries) = (e.1.token, e.2) :: named entries := rfl

/-- A member that is added comes last. -/
theorem Container.named_of_add? {c c' : Container} {key : Segment} {v : Tree} (h : c.add? key v = some c') :
    named c'.entries = named c.entries ++ [(key.token, v)] := by
  cases c with
  | object members =>
    simp only [Container.add?] at h
    split at h
    · cases h
    · rename_i hnew
      cases h
      rw [Bool.not_eq_true, OrderedMap.contains_eq_false_iff] at hnew
      simp [named, Container.entries, OrderedMap.put_of_notMem _ _ _ hnew]
  | array items =>
    simp only [Container.add?] at h
    split at h
    · rename_i hkey
      cases h
      obtain ⟨htoken, _⟩ := Segment.asIndex_eq_some_iff.mp hkey
      rw [htoken]
      simp [named, Container.entries, Container.indexed_append, Container.indexed, Segment.token]
    · cases h

theorem Json.sizeOf_lt_ofContainer {isArray : Bool} {members : List (String × Json)} {m : String × Json}
    (hm : m ∈ members) : sizeOf m.2 < sizeOf (ofContainer isArray members) := by
  cases isArray with
  | true =>
    have hlt := List.sizeOf_lt_of_mem (List.mem_map_of_mem (f := Prod.snd) hm)
    have hof : ofContainer true members = .array (members.map Prod.snd) := rfl
    rw [hof, array.sizeOf_spec]
    omega
  | false =>
    have hlt := List.sizeOf_lt_of_mem hm
    have hpair : sizeOf m = 1 + sizeOf m.1 + sizeOf m.2 := rfl
    have hof : ofContainer false members = .object members := rfl
    rw [hof, object.sizeOf_spec]
    omega

namespace Heap

/-- The members of a container under their tokens. -/
def members (h : Heap) (t : Tree) : List (String × Tree) := named (h.entries t)

/-- A tree unfolds to a value when it is written down with shared containers wherever they occur. -/
inductive Unfolds (h : Heap) : Tree → Json → Prop
  | null : Unfolds h .null .null
  | bool (value : Bool) : Unfolds h (.bool value) (.bool value)
  | number (value : Number) : Unfolds h (.number value) (.number value)
  | string (text : String) : Unfolds h (.string text) (.string text)
  | container {id : ContainerId} {vs : List (String × Json)}
      (hnames : vs.map Prod.fst = (h.members (.container id)).map Prod.fst)
      (hvalues : ∀ p ∈ (h.members (.container id)).zip vs, Unfolds h p.1.2 p.2.2) :
      Unfolds h (.container id) (Json.ofContainer (h.isArray (.container id)) vs)

/-- Members unfold under their tokens. -/
def UnfoldsAll (h : Heap) : List (String × Tree) → List (String × Json) → Prop :=
  List.Forall₂ fun m v => m.1 = v.1 ∧ h.Unfolds m.2 v.2

/-- The value of a member with its token. -/
def memberJson (h : Heap) (opened : List ContainerId) (m : String × Tree) : Option (String × Json) :=
  (h.serialize opened m.2).map (m.1, ·)

variable {h h' : Heap} {t u : Tree} {j j' : Json} {id : ContainerId} {opened : List ContainerId}

theorem mem_members {x : Segment × Tree} (hx : x ∈ h.entries t) : (x.1.token, x.2) ∈ h.members t :=
  List.mem_map_of_mem (f := fun e : Segment × Tree => (e.1.token, e.2)) hx

theorem unfoldsAll_iff {ms : List (String × Tree)} {vs : List (String × Json)} :
    h.UnfoldsAll ms vs ↔
      vs.map Prod.fst = ms.map Prod.fst ∧ ∀ p ∈ ms.zip vs, h.Unfolds p.1.2 p.2.2 := by
  constructor
  · intro hall
    induction hall with
    | nil => exact ⟨rfl, fun _ hp => nomatch hp⟩
    | cons hm _ ih =>
      rw [List.map_cons, List.map_cons, ih.1, hm.1]
      exact ⟨rfl, List.forall_mem_cons.mpr ⟨hm.2, ih.2⟩⟩
  · rintro ⟨hnames, hvalues⟩
    induction ms generalizing vs with
    | nil =>
      obtain rfl : vs = [] := List.map_eq_nil_iff.mp hnames
      exact .nil
    | cons m ms ih =>
      cases vs with
      | nil => cases hnames
      | cons v vs =>
        rw [List.map_cons, List.map_cons, List.cons.injEq] at hnames
        rw [List.zip_cons_cons, List.forall_mem_cons] at hvalues
        exact .cons ⟨hnames.1.symm, hvalues.1⟩ (ih hnames.2 hvalues.2)

/-- A container unfolds when its members do. -/
theorem unfolds_container_iff : h.Unfolds (.container id) j ↔
    ∃ vs, h.UnfoldsAll (h.members (.container id)) vs ∧
      j = Json.ofContainer (h.isArray (.container id)) vs := by
  constructor
  · rintro ⟨⟩
    exact ⟨_, unfoldsAll_iff.mpr ⟨‹_›, ‹_›⟩, rfl⟩
  · rintro ⟨vs, hvs, rfl⟩
    obtain ⟨hnames, hvalues⟩ := unfoldsAll_iff.mp hvs
    exact .container hnames hvalues

theorem unfolds_scalar_iff (ht : t.id? = none) : h.Unfolds t j ↔ h'.Unfolds t j := by
  have hscalar : ∀ {h h' : Heap}, h.Unfolds t j → h'.Unfolds t j := by
    rintro h h' (_ | b | n | s | _)
    · exact .null
    · exact .bool b
    · exact .number n
    · exact .string s
    · cases ht
  exact ⟨hscalar, hscalar⟩

/-- Members whose values are the only ones they have unfold to these values only. -/
theorem UnfoldsAll.eq_of_unique {ms : List (String × Tree)} {vs ws : List (String × Json)}
    (hws : h.UnfoldsAll ms ws) (hnames : vs.map Prod.fst = ms.map Prod.fst)
    (hunique : ∀ p ∈ ms.zip vs, ∀ {w}, h.Unfolds p.1.2 w → p.2.2 = w) : vs = ws := by
  induction hws generalizing vs with
  | nil => exact List.map_eq_nil_iff.mp hnames
  | cons hw _ ih =>
    cases vs with
    | nil => cases hnames
    | cons v vs =>
      rw [List.map_cons, List.map_cons, List.cons.injEq] at hnames
      rw [List.zip_cons_cons, List.forall_mem_cons] at hunique
      have hhead : v = _ := Prod.ext (hnames.1.trans hw.1) (hunique.1 hw.2)
      rw [hhead, ih hnames.2 hunique.2]

theorem Unfolds.unique (hj : h.Unfolds t j) (hj' : h.Unfolds t j') : j = j' := by
  induction hj generalizing j' with
  | container hnames _ ih =>
    obtain ⟨ws, hws, rfl⟩ := unfolds_container_iff.mp hj'
    rw [hws.eq_of_unique hnames fun p hp _ hw => ih p hp hw]
  | _ => cases hj'; rfl

/-- What can be reached from a tree that unfolds does so too, and to a smaller value below it. -/
theorem Unfolds.exists_of_mem (hj : h.Unfolds t j) {x : Segment × Tree} (hx : x ∈ h.entries t) :
    ∃ v, h.Unfolds x.2 v ∧ sizeOf v < sizeOf j := by
  cases hid : t.id? with
  | none =>
    rw [entries, container?, hid] at hx
    cases hx
  | some id =>
    obtain rfl := Tree.eq_container_of_id? hid
    obtain ⟨vs, hvs, rfl⟩ := unfolds_container_iff.mp hj
    obtain ⟨v, hv, _, hunfolds⟩ := exists_of_mem_left hvs (mem_members hx)
    exact ⟨v.2, hunfolds, Json.sizeOf_lt_ofContainer hv⟩

theorem Unfolds.exists_of_reaches (hj : h.Unfolds t j) (hu : h.Reaches t u) :
    ∃ v, h.Unfolds u v ∧ sizeOf v ≤ sizeOf j := by
  induction hu with
  | self => exact ⟨j, hj, Nat.le_refl _⟩
  | member _ hx ih =>
    obtain ⟨v, hv, hle⟩ := ih
    obtain ⟨w, hw, hlt⟩ := hv.exists_of_mem hx
    exact ⟨w, hw, Nat.le_trans (Nat.le_of_lt hlt) hle⟩

/-- The value of a container that is reached from itself would have to be smaller than itself. -/
theorem Unfolds.not_loops (hj : h.Unfolds t j) (hid : h.Reaches t (.container id)) : ¬h.Loops id := by
  rintro ⟨x, hx, hreach⟩
  obtain ⟨v, hv, _⟩ := hj.exists_of_reaches hid
  obtain ⟨w, hw, hlt⟩ := hv.exists_of_mem hx
  obtain ⟨v', hv', hle⟩ := hw.exists_of_reaches hreach
  rw [hv.unique hv'] at hlt
  exact Nat.not_le_of_lt hlt hle

theorem memberJson_eq_some_iff {m : String × Tree} {v : String × Json} :
    h.memberJson opened m = some v ↔ m.1 = v.1 ∧ h.serialize opened m.2 = some v.2 := by
  rw [memberJson, Option.map_eq_some_iff]
  constructor
  · rintro ⟨w, hw, rfl⟩
    exact ⟨rfl, hw⟩
  · rintro ⟨hname, hw⟩
    exact ⟨v.2, hw, by rw [hname]⟩

theorem mapM_indexed (f : Tree → Option Json) (start : Nat) (ts : List Tree) :
    ((named (Container.indexed start ts)).mapM fun m => (f m.2).map (m.1, ·)).map
      (List.map Prod.snd) = ts.mapM f := by
  induction ts generalizing start with
  | nil => rfl
  | cons t ts ih =>
    rw [List.mapM_cons, ← ih (start + 1), Container.indexed, named_cons, List.mapM_cons]
    cases f t with
    | none => rfl
    | some v =>
      simp only [Option.map_some, Option.bind_eq_bind, Option.bind_some, Option.pure_def]
      rw [Option.map_bind, Option.bind_map]
      rfl

theorem serialize_opened (hopen : id ∈ opened) : h.serialize opened (.container id) = none := by
  unfold serialize
  exact dif_pos hopen

/-- The value of a container is made of the values that its members have inside it. -/
theorem serialize_container (hopen : id ∉ opened) : h.serialize opened (.container id) =
    ((h.members (.container id)).mapM (h.memberJson (id :: opened))).map
      (Json.ofContainer (h.isArray (.container id))) := by
  conv_lhs => unfold serialize
  simp only [dif_neg hopen]
  unfold members named entries isArray
  split
  case h_1 members hc =>
    simp only [container?, Tree.id?, Option.bind_some, hc, Option.map_some, Option.getD_some,
      Container.entries, Container.isArray, List.map_map, List.mapM_map]
    rfl
  case h_2 items hc =>
    simp only [container?, Tree.id?, Option.bind_some, hc, Option.map_some, Option.getD_some,
      Container.entries, Container.isArray]
    rw [← mapM_indexed (h.serialize (id :: opened)) 0 items, Option.map_map]
    rfl
  case h_3 hc => simp [container?, Tree.id?, hc, Json.ofContainer]

/-- A tree is serialized to the value it unfolds to, or it comes back to an open container or to one
that is reached from itself. -/
def Decides (h : Heap) (opened : List ContainerId) (t : Tree) : Prop :=
  (∃ j, h.serialize opened t = some j ∧ h.Unfolds t j) ∨
  (h.serialize opened t = none ∧ ∃ id, h.Reaches t (.container id) ∧ (id ∈ opened ∨ h.Loops id))

/-- A container comes back where a member does, or it is what the member comes back to. -/
theorem decides_container (hopen : id ∉ opened)
    (hmembers : ∀ x ∈ h.entries (.container id), h.Decides (id :: opened) x.2) :
    h.Decides opened (.container id) := by
  have hentry : ∀ m ∈ h.members (.container id), ∃ x ∈ h.entries (.container id), x.2 = m.2 := by
    intro m hm
    obtain ⟨x, hx, rfl⟩ := List.mem_map.mp hm
    exact ⟨x, hx, rfl⟩
  unfold Decides
  rw [serialize_container hopen]
  cases hall : (h.members (.container id)).mapM (h.memberJson (id :: opened)) with
  | some vs =>
    refine .inl ⟨_, rfl, unfolds_container_iff.mpr ⟨vs, ?_, rfl⟩⟩
    refine ((List.forall₂_and_left _ _).mpr ⟨hentry, mapM_eq_some_iff.mp hall⟩).imp ?_
    rintro m v ⟨⟨x, hx, hxm⟩, hv⟩
    obtain ⟨hname, hvalue⟩ := memberJson_eq_some_iff.mp hv
    rw [← hxm] at hvalue ⊢
    rcases hmembers x hx with ⟨j, hj, hunfolds⟩ | ⟨hnone, _⟩
    · cases hj.symm.trans hvalue
      exact ⟨hname, hunfolds⟩
    · cases hnone.symm.trans hvalue
  | none =>
    refine .inr ⟨rfl, ?_⟩
    obtain ⟨m, hm, hnone⟩ : ∃ m ∈ h.members (.container id), h.memberJson (id :: opened) m = none := by
      by_contra hsome
      have hall' := isSome_mapM_iff.mpr fun m hm =>
        Option.isSome_iff_ne_none.mpr fun hnone => hsome ⟨m, hm, hnone⟩
      rw [hall] at hall'
      cases hall'
    rw [memberJson, Option.map_eq_none_iff] at hnone
    obtain ⟨x, hx, hxm⟩ := hentry m hm
    rw [← hxm] at hnone
    have hbelow : h.Reaches (.container id) x.2 := .member .self hx
    rcases hmembers x hx with ⟨j, hj, _⟩ | ⟨_, i, hi, hback | hloops⟩
    · cases hj.symm.trans hnone
    · rcases List.mem_cons.mp hback with rfl | hback
      · exact ⟨i, .self, .inr ⟨x, hx, hi⟩⟩
      · exact ⟨i, hbelow.trans hi, .inl hback⟩
    · exact ⟨i, hbelow.trans hi, .inr hloops⟩

theorem decides (h : Heap) (opened : List ContainerId) (t : Tree) : h.Decides opened t := by
  induction opened, t using serialize.induct h with
  | case1 => exact .inl ⟨_, by rw [serialize], .null⟩
  | case2 => exact .inl ⟨_, by rw [serialize], .bool _⟩
  | case3 => exact .inl ⟨_, by rw [serialize], .number _⟩
  | case4 => exact .inl ⟨_, by rw [serialize], .string _⟩
  | case5 opened id hopen => exact .inr ⟨serialize_opened hopen, id, .self, .inl hopen⟩
  | case6 opened id hopen members hc ih => exact decides_container hopen fun x _ => ih (x.1.token, x.2)
  | case7 opened id hopen items hc ih => exact decides_container hopen fun x _ => ih x.2
  | case8 opened id hopen hc =>
    refine decides_container hopen fun x hx => ?_
    simp [entries, container?, Tree.id?, hc] at hx

/-- A tree is written down as the value that it unfolds to. -/
theorem toJson?_eq_some_iff : h.toJson? t = some j ↔ h.Unfolds t j := by
  rcases h.decides [] t with ⟨j', hj', hunfolds⟩ | ⟨hnone, id, hreach, hmem | hloops⟩
  · rw [toJson?, hj', Option.some.injEq]
    exact ⟨fun heq => heq ▸ hunfolds, hunfolds.unique⟩
  · cases hmem
  · rw [toJson?, hnone]
    exact ⟨fun hsome => (nomatch hsome), fun hunfolds => absurd hloops (hunfolds.not_loops hreach)⟩

/-- Writing a tree down fails exactly when it reaches a container that is reached from itself. -/
theorem toJson?_eq_none_iff :
    h.toJson? t = none ↔ ∃ id, h.Reaches t (.container id) ∧ h.Loops id := by
  rcases h.decides [] t with ⟨j, hj, hunfolds⟩ | ⟨hnone, id, hreach, hmem | hloops⟩
  · rw [toJson?, hj]
    exact ⟨fun hnone => (nomatch hnone), fun ⟨_, hid, hloops⟩ => absurd hloops (hunfolds.not_loops hid)⟩
  · cases hmem
  · exact ⟨fun _ => ⟨id, hreach, hloops⟩, fun _ => hnone⟩

example : toJson? ⟨#[.object (.ofList [("own", .container 0)])]⟩ (.container 0) = none := rfl

end Heap

end Lineage
