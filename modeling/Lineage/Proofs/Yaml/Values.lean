import Lineage.Proofs.Provenance.Longest
import Lineage.Proofs.Tree.RoundTrip

/-! YAML values as trees. What a YAML value stands for is a JSON value: tags are dropped wherever they
stand, the text of a key is the name of a member, and of entries with one text the last value stands at
the first place. The tree of a YAML value is built of new containers as that of the JSON value is, so it
is written down as this value, and shares and contains nothing twice. -/

namespace Lineage

namespace OrderedMap

variable {κ α β : Type} [DecidableEq κ] {r : α → β → Prop} {es : List (κ × α)} {fs : List (κ × β)}

theorem keys_lastByKey (es : List (κ × α)) :
    (lastByKey es).map Prod.fst = (es.map Prod.fst).eraseDups := by
  rw [← entries_ofList]
  exact (keys_ofList es).trans (distinctFrom_eq_eraseDups (fun _ _ => BEq.comm) [] _).symm

theorem nodup_lastByKey (es : List (κ × α)) : ((lastByKey es).map Prod.fst).Nodup := by
  rw [← entries_ofList]
  exact (ofList es).nodup

theorem lastByKey_subset (es : List (κ × α)) : lastByKey es ⊆ es := by
  intro e he
  obtain ⟨k, _, hk⟩ := List.mem_filterMap.mp he
  obtain ⟨v, hv, rfl⟩ := Option.map_eq_some_iff.mp hk
  exact List.mem_reverse.mp (mem_of_find hv)

theorem find_append_of_notMem {k : κ} {es fs : List (κ × α)} (hk : k ∉ es.map Prod.fst) :
    find k (es ++ fs) = find k fs := by
  induction es with
  | nil => rfl
  | cons e rest ih =>
    rw [List.map_cons, List.mem_cons, not_or] at hk
    rw [List.cons_append, find, if_neg (Ne.symm hk.1), ih hk.2]

/-- The last entry with its key keeps its value. -/
theorem mem_lastByKey {before after : List (κ × α)} {e : κ × α} (he : e.1 ∉ after.map Prod.fst) :
    e ∈ lastByKey (before ++ e :: after) := by
  have hafter : e.1 ∉ after.reverse.map Prod.fst := by rwa [List.map_reverse, List.mem_reverse]
  rw [← entries_ofList]
  refine mem_of_find (v := e.2) ((get?_ofList _ _).trans ?_)
  rw [List.reverse_append, List.reverse_cons, List.append_assoc, find_append_of_notMem hafter]
  exact if_pos rfl

/-- What is found in two lists that agree on their keys agrees as their values do. -/
theorem find_forall₂ (h : List.Forall₂ (fun e f => e.1 = f.1 ∧ r e.2 f.2) es fs) (k : κ) :
    (find k es = none ∧ find k fs = none) ∨ ∃ v w, find k es = some v ∧ find k fs = some w ∧ r v w := by
  induction h with
  | nil => exact .inl ⟨rfl, rfl⟩
  | @cons e f _ _ hef _ ih =>
    obtain ⟨k₁, v⟩ := e
    obtain ⟨k₂, w⟩ := f
    obtain ⟨rfl, hvw⟩ := hef
    by_cases hk : k₁ = k
    · exact .inr ⟨v, w, if_pos hk, if_pos hk, hvw⟩
    · rw [find, if_neg hk, find, if_neg hk]
      exact ih

/-- Lists that agree on their keys have their last values under the same keys. -/
theorem lastByKey_forall₂ (h : List.Forall₂ (fun e f => e.1 = f.1 ∧ r e.2 f.2) es fs) :
    List.Forall₂ (fun e f => e.1 = f.1 ∧ r e.2 f.2) (lastByKey es) (lastByKey fs) := by
  have hkeys : fs.map Prod.fst = es.map Prod.fst := by
    induction h with
    | nil => rfl
    | cons hef _ ih => rw [List.map_cons, List.map_cons, ih, hef.1]
  have hfound := find_forall₂ (List.rel_reverse h)
  unfold lastByKey
  rw [hkeys]
  generalize distinctBy (· == ·) (es.map Prod.fst) = ks
  induction ks with
  | nil => exact .nil
  | cons k ks ih =>
    rcases hfound k with ⟨hnone, hnone'⟩ | ⟨v, w, hv, hw, hvw⟩
    · rw [List.filterMap_cons_none (by rw [hnone]; rfl), List.filterMap_cons_none (by rw [hnone']; rfl)]
      exact ih
    · rw [List.filterMap_cons_some (by rw [hv]; rfl), List.filterMap_cons_some (by rw [hw]; rfl)]
      exact .cons ⟨rfl, hvw⟩ ih

end OrderedMap

namespace Yaml

mutual

/-- The JSON value that a YAML value stands for. -/
def toJson : Yaml → Json
  | .null => .null
  | .bool value => .bool value
  | .integer value fits => .number (.integer value fits)
  | .float value => if h : value.isFinite = true then .number (.float value h) else .null
  | .string text => .string text
  | .sequence items => .array (itemsToJson items)
  | .mapping entries => .object (OrderedMap.lastByKey (entriesToJson entries))
  | .tagged _ value => toJson value

def itemsToJson : List Yaml → List Json
  | [] => []
  | item :: rest => toJson item :: itemsToJson rest

/-- The values of entries under the texts of their keys. -/
def entriesToJson : List (Yaml × Yaml) → List (String × Json)
  | [] => []
  | (key, value) :: rest => (key.keyText, toJson value) :: entriesToJson rest

end

theorem entriesToJson_eq (entries : List (Yaml × Yaml)) :
    entriesToJson entries = entries.map fun e => (e.1.keyText, e.2.toJson) := by
  induction entries with
  | nil => rfl
  | cons e rest ih =>
    rw [entriesToJson, ih]
    rfl

/-- A mapping stands for an object that has each text once, in the order of the first entries with it, and
the value of the last entry with it. -/
theorem toJson_mapping (entries : List (Yaml × Yaml)) : ∃ members,
    (mapping entries).toJson = .object members ∧
    members.map Prod.fst = (entries.map fun e => e.1.keyText).eraseDups ∧
    ∀ before e after, entries = before ++ e :: after →
      (∀ later ∈ after, later.1.keyText ≠ e.1.keyText) → (e.1.keyText, e.2.toJson) ∈ members := by
  refine ⟨_, by rw [toJson], ?_, ?_⟩
  · rw [OrderedMap.keys_lastByKey, entriesToJson_eq, List.map_map]
    rfl
  · rintro before e after rfl hlast
    rw [entriesToJson_eq, List.map_append, List.map_cons]
    refine OrderedMap.mem_lastByKey ?_
    rw [List.map_map]
    intro hmem
    obtain ⟨later, hlater, heq⟩ := List.mem_map.mp hmem
    exact hlast later hlater heq

mutual

theorem distinctNames_toJson : ∀ y : Yaml, y.toJson.DistinctNames
  | .null => .null
  | .bool value => .bool value
  | .integer value fits => .number (.integer value fits)
  | .float value => by
    rw [toJson]
    split
    · exact .number _
    · exact .null
  | .string text => .string text
  | .sequence items => .array (distinctNames_itemsToJson items)
  | .mapping entries => .object (OrderedMap.nodup_lastByKey _) fun m hm =>
      distinctNames_entriesToJson entries m (OrderedMap.lastByKey_subset _ hm)
  | .tagged _ value => distinctNames_toJson value

theorem distinctNames_itemsToJson : ∀ items : List Yaml, ∀ v ∈ itemsToJson items, v.DistinctNames
  | [] => fun _ hv => nomatch hv
  | item :: rest =>
    List.forall_mem_cons.mpr ⟨distinctNames_toJson item, distinctNames_itemsToJson rest⟩

theorem distinctNames_entriesToJson :
    ∀ entries : List (Yaml × Yaml), ∀ m ∈ entriesToJson entries, m.2.DistinctNames
  | [] => fun _ hm => nomatch hm
  | (_, value) :: rest =>
    List.forall_mem_cons.mpr ⟨distinctNames_toJson value, distinctNames_entriesToJson rest⟩

end

end Yaml

namespace Heap

variable {h u : Heap} {vs : List (String × Json)} {ms : List (String × Tree)}

/-- An object that keeps the last value of each name. -/
theorem BuildsAll.object (hall : h.BuildsAll vs ms u) (hvs : ∀ v ∈ vs, v.2.DistinctNames) :
    h.Builds (.object (OrderedMap.lastByKey vs)) (.container u.size)
      (u.alloc (.object (.ofList ms))).2 := by
  have hgrows := u.grows_alloc (.object (.ofList ms))
  have hget : (u.alloc (.object (.ofList ms))).2.get? u.size = some (.object (.ofList ms)) := by
    rw [get?_alloc, if_pos rfl]
  have hmembers : (u.alloc (.object (.ofList ms))).2.members (.container u.size) =
      OrderedMap.lastByKey ms := by
    rw [members, entries_container hget, named_object, OrderedMap.entries_ofList]
  constructor
  case grows => exact hall.grows.trans hgrows
  case within =>
    rw [size_alloc]
    refine (hall.spread.mono (Nat.le_refl _) hgrows).within_container ?_
    rw [hmembers]
    exact OrderedMap.lastByKey_subset ms
  case unfolds =>
    intro _
    have hlast := OrderedMap.lastByKey_forall₂
      ((hall.unfolds hvs).congr (hall.spread.same (Nat.le_refl _) hgrows))
    rw [unfolds_container_iff, hmembers]
    exact ⟨_, hlast, congrArg (Json.ofContainer · _) (isArray_container hget).symm⟩

mutual

theorem addYaml_builds (h : Heap) (y : Yaml) :
    h.Builds y.toJson (h.addYaml y).1 (h.addYaml y).2 :=
  match y with
  | .null => ⟨.refl h, within_scalar rfl _, fun _ => .null⟩
  | .bool value => ⟨.refl h, within_scalar rfl _, fun _ => .bool value⟩
  | .integer value fits => ⟨.refl h, within_scalar rfl _, fun _ => .number (.integer value fits)⟩
  | .float value => by
    rw [Yaml.toJson, addYaml, Tree.ofBinary64, Number.ofBinary64?]
    split
    · exact ⟨.refl h, within_scalar rfl _, fun _ => .number _⟩
    · exact ⟨.refl h, within_scalar rfl _, fun _ => .null⟩
  | .string text => ⟨.refl h, within_scalar rfl _, fun _ => .string text⟩
  | .sequence items => by
    obtain ⟨vs, hvs, hall⟩ := addYamlItems_builds h 0 items
    refine hall.container (c := .array (h.addYamlItems items).1) ?_ (List.Subset.refl _) fun _ => ?_
    · rw [Yaml.toJson, ← hvs]
      rfl
    · refine ⟨fun w hw => ?_, fun _ => rfl⟩
      exact Yaml.distinctNames_itemsToJson items w.2 (hvs ▸ List.mem_map_of_mem hw)
  | .mapping entries =>
    (addYamlEntries_builds h entries).object (Yaml.distinctNames_entriesToJson entries)
  | .tagged _ value => addYaml_builds h value

theorem addYamlItems_builds (h : Heap) (start : Nat) (items : List Yaml) :
    ∃ vs, vs.map Prod.snd = Yaml.itemsToJson items ∧ h.BuildsAll vs
      (named (Container.indexed start (h.addYamlItems items).1)) (h.addYamlItems items).2 :=
  match items with
  | [] => ⟨[], rfl, .refl h, .nil, fun _ => .nil⟩
  | item :: rest => by
    have hitem := addYaml_builds h item
    obtain ⟨vs, hvs, hall⟩ := addYamlItems_builds (h.addYaml item).2 (start + 1) rest
    exact ⟨(_, item.toJson) :: vs, by rw [List.map_cons, hvs, Yaml.itemsToJson], .cons hitem hall⟩

theorem addYamlEntries_builds (h : Heap) (entries : List (Yaml × Yaml)) :
    h.BuildsAll (Yaml.entriesToJson entries) (h.addYamlEntries entries).1
      (h.addYamlEntries entries).2 :=
  match entries with
  | [] => ⟨.refl h, .nil, fun _ => .nil⟩
  | (_, value) :: rest =>
    .cons (addYaml_builds h value) (addYamlEntries_builds (h.addYaml value).2 rest)

end

/-- The tree of a YAML value is made of new containers and is written down as the JSON value that the YAML
value stands for, in which each text of a key is one member. No container stands at two places, and none is
reached from itself. -/
theorem addYaml_unfolding (h : Heap) (y : Yaml) :
    h.Grows (h.addYaml y).2 ∧ (h.addYaml y).2.toJson? (h.addYaml y).1 = some y.toJson ∧
    (∀ entries, ∃ members, (Yaml.mapping entries).toJson = .object members ∧
      members.map Prod.fst = (entries.map fun e => e.1.keyText).eraseDups ∧
      ∀ before e after, entries = before ++ e :: after →
        (∀ later ∈ after, later.1.keyText ≠ e.1.keyText) →
        (e.1.keyText, e.2.toJson) ∈ members) ∧
    (∀ id, (h.addYaml y).2.Reaches (h.addYaml y).1 (.container id) →
      h.size ≤ id ∧ ¬(h.addYaml y).2.Loops id) ∧
    ∀ id p q, (h.addYaml y).2.resolve? (h.addYaml y).1 p = some (.container id) →
      (h.addYaml y).2.resolve? (h.addYaml y).1 q = some (.container id) → (p == q) = true := by
  have hbuilds := h.addYaml_builds y
  have hunfolds := hbuilds.unfolds y.distinctNames_toJson
  refine ⟨hbuilds.grows, toJson?_eq_some_iff.mpr hunfolds, Yaml.toJson_mapping, fun id hid => ?_,
    fun id p q hp hq => Pointer.beq_iff.mpr (hbuilds.within.place hp hq)⟩
  exact ⟨(hbuilds.within.range hid).1, hunfolds.not_loops hid⟩

/-- A response code comes as a number and as a text, and a tag and what is not a number are dropped. -/
def codes : Yaml :=
  .mapping [(.integer 200 rfl, .sequence [.bool false]), (.null, .float .nan),
    (.string "200", .tagged "t" (.sequence [.integer 18446744073709551615 rfl, .string "null"]))]

theorem addYaml_unfolding_codes :
    codes.toJson = .object [("200", .array [.number (.integer 18446744073709551615 rfl),
      .string "null"]), ("null", .null)] ∧
    (addYaml {} codes).2.size = 3 ∧
    (addYaml {} codes).2.toJson? (addYaml {} codes).1 = some codes.toJson ∧
    ∀ id p q, (addYaml {} codes).2.resolve? (addYaml {} codes).1 p = some (.container id) →
      (addYaml {} codes).2.resolve? (addYaml {} codes).1 q = some (.container id) →
      (p == q) = true := by
  obtain ⟨_, hjson, _, _, hplace⟩ := addYaml_unfolding {} codes
  exact ⟨rfl, rfl, hjson, hplace⟩

end Heap

end Lineage
