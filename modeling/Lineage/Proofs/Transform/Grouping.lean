import Mathlib.Data.List.Induction
import Mathlib.Data.List.Nodup
import Lineage.Transform.SchemaDedup

/-! Groups of equal schemas. Schemas are classified one by one: one whose text is known is folded into its
group, and any other starts a group behind those that are there. So a group keeps its position, no two
groups have one text, and a group tells of the first schema with its text and of all later ones. -/

namespace Lineage

/-- The group after an equal schema was found. -/
def SchemaGroup.fold (g new : SchemaGroup) : SchemaGroup := { g with folded := g.folded ++ [new.first] }

namespace SchemaDedup

variable {new item g : SchemaGroup} {groups items : List SchemaGroup}

/-- The text of each group. -/
def texts (groups : List SchemaGroup) : List String := groups.map (·.canonical)

/-- A schema is folded into the only group with its text, or it starts the last group. -/
theorem classify_cases (new : SchemaGroup) (groups : List SchemaGroup) :
    (∃ before g after, groups = before ++ g :: after ∧ g.canonical = new.canonical ∧
      classify new groups = (before.length, before ++ g.fold new :: after)) ∨
    new.canonical ∉ texts groups ∧ classify new groups = (groups.length, groups ++ [new]) := by
  induction groups with
  | nil => exact .inr ⟨List.not_mem_nil, rfl⟩
  | cons g rest ih =>
    by_cases hg : g.canonical = new.canonical
    · left
      refine ⟨[], g, rest, rfl, hg, ?_⟩
      rw [classify, if_pos hg]
      rfl
    · rcases ih with ⟨before, found, after, rfl, hfound, hclassify⟩ | ⟨hnone, hclassify⟩
      · left
        refine ⟨g :: before, found, after, rfl, hfound, ?_⟩
        rw [classify, if_neg hg, hclassify]
        rfl
      · right
        refine ⟨?_, ?_⟩
        · rw [texts, List.map_cons, List.mem_cons, not_or]
          exact ⟨Ne.symm hg, hnone⟩
        · rw [classify, if_neg hg, hclassify]
          rfl

/-- A new text comes last. -/
theorem texts_classify (new : SchemaGroup) (groups : List SchemaGroup) : texts (classify new groups).2 =
    if new.canonical ∈ texts groups then texts groups else texts groups ++ [new.canonical] := by
  rcases classify_cases new groups with ⟨before, found, after, rfl, hfound, hclassify⟩ | ⟨hnone, hclassify⟩
  · rw [hclassify, if_pos (by simp [texts, hfound])]
    simp [texts, SchemaGroup.fold]
  · rw [hclassify, if_neg hnone]
    simp [texts]

/-- A group keeps its position. -/
theorem getElem?_classify_of_getElem? {i : Nat} {text : String} (hi : (texts groups)[i]? = some text) :
    (texts (classify new groups).2)[i]? = some text := by
  rw [texts_classify]
  split
  · exact hi
  · rw [List.getElem?_append_left (List.getElem?_eq_some_iff.mp hi).1]
    exact hi

/-- The position that is told is that of the text. -/
theorem getElem?_classify (new : SchemaGroup) (groups : List SchemaGroup) :
    (texts (classify new groups).2)[(classify new groups).1]? = some new.canonical := by
  rcases classify_cases new groups with ⟨before, found, after, rfl, hfound, hclassify⟩ | ⟨_, hclassify⟩
  · rw [hclassify, ← hfound]
    simp [texts, SchemaGroup.fold]
  · rw [hclassify]
    simp [texts]

theorem nodup_classify (new : SchemaGroup) (h : (texts groups).Nodup) :
    (texts (classify new groups).2).Nodup := by
  rw [texts_classify]
  split
  · exact h
  · rename_i hnone
    exact List.nodup_append.mpr ⟨h, List.nodup_singleton _, by
      intro a ha b hb
      rw [List.mem_singleton.mp hb]
      rintro rfl
      exact hnone ha⟩

/-- The groups of schemas that were found in this order. -/
def collect (items : List SchemaGroup) : List SchemaGroup :=
  items.foldl (fun groups item => (classify item groups).2) []

theorem collect_concat (items : List SchemaGroup) (new : SchemaGroup) :
    collect (items ++ [new]) = (classify new (collect items)).2 := by
  simp [collect]

theorem nodup_texts_collect (items : List SchemaGroup) : (texts (collect items)).Nodup := by
  induction items using List.reverseRecOn with
  | nil => exact List.nodup_nil
  | append_singleton items new ih =>
    rw [collect_concat]
    exact nodup_classify new ih

/-- A text tells the position of its group. -/
theorem position_eq {i k : Nat} {text : String} (hi : (texts (collect items))[i]? = some text)
    (hk : (texts (collect items))[k]? = some text) : i = k :=
  (List.getElem?_inj (List.getElem?_eq_some_iff.mp hi).1 (nodup_texts_collect items)).mp (hi.trans hk.symm)

/-- Every schema has a group. -/
theorem mem_texts_collect (hitem : item ∈ items) : item.canonical ∈ texts (collect items) := by
  induction items using List.reverseRecOn with
  | nil => cases hitem
  | append_singleton items new ih =>
    rw [collect_concat]
    rcases List.mem_append.mp hitem with hitem | hitem
    · obtain ⟨i, hi⟩ := List.mem_iff_getElem?.mp (ih hitem)
      exact List.mem_of_getElem? (getElem?_classify_of_getElem? hi)
    · rw [List.mem_singleton.mp hitem]
      exact List.mem_of_getElem? (getElem?_classify new _)

/-- A group stands for these schemas: `item` is the first with its text, and those behind it that have the
same text were folded into it. -/
def Stands (g : SchemaGroup) (items : List SchemaGroup) : Prop :=
  ∃ before item after, items = before ++ item :: after ∧ (∀ b ∈ before, b.canonical ≠ item.canonical) ∧
    g = { item with folded := item.folded ++
      (after.filter fun a => a.canonical = item.canonical).map (·.first) }

/-- A schema with another text changes nothing. -/
theorem Stands.concat_of_ne (hg : Stands g items) (hne : new.canonical ≠ g.canonical) :
    Stands g (items ++ [new]) := by
  obtain ⟨before, item, after, rfl, hfirst, rfl⟩ := hg
  have hfilter : [new].filter (fun a => a.canonical = item.canonical) = [] := by
    simpa using hne
  refine ⟨before, item, after ++ [new], by simp, hfirst, ?_⟩
  rw [List.filter_append, hfilter, List.append_nil]

theorem Stands.concat_of_eq (hg : Stands g items) (heq : new.canonical = g.canonical) :
    Stands (g.fold new) (items ++ [new]) := by
  obtain ⟨before, item, after, rfl, hfirst, rfl⟩ := hg
  have hfilter : [new].filter (fun a => a.canonical = item.canonical) = [new] := by
    simpa using heq
  refine ⟨before, item, after ++ [new], by simp, hfirst, ?_⟩
  rw [List.filter_append, hfilter, List.map_append, ← List.append_assoc]
  rfl

/-- Every group stands for the schemas that were found. -/
theorem stands_of_mem_collect (hg : g ∈ collect items) : Stands g items := by
  induction items using List.reverseRecOn generalizing g with
  | nil => cases hg
  | append_singleton items new ih =>
    have hnodup := nodup_texts_collect items
    rw [collect_concat] at hg
    rcases classify_cases new (collect items) with
      ⟨before, found, after, hgroups, hfound, hclassify⟩ | ⟨hnone, hclassify⟩
    · rw [hclassify] at hg
      rw [hgroups] at ih hnodup
      -- no other group has the text of the one that was found
      have hne : ∀ x ∈ before ++ after, new.canonical ≠ x.canonical := by
        intro x hx heq
        rw [texts, List.map_append, List.map_cons, List.nodup_middle, ← List.map_append] at hnodup
        refine (List.nodup_cons.mp hnodup).1 ?_
        rw [hfound, heq]
        exact List.mem_map_of_mem hx
      rcases List.mem_append.mp hg with hg | hg
      · exact (ih (List.mem_append_left _ hg)).concat_of_ne (hne g (List.mem_append_left _ hg))
      · rcases List.mem_cons.mp hg with rfl | hg
        · exact (ih (List.mem_append_right _ List.mem_cons_self)).concat_of_eq hfound.symm
        · exact (ih (List.mem_append_right _ (List.mem_cons_of_mem _ hg))).concat_of_ne
            (hne g (List.mem_append_right _ hg))
    · rw [hclassify] at hg
      rcases List.mem_append.mp hg with hg | hg
      · refine (ih hg).concat_of_ne fun heq => hnone ?_
        rw [heq]
        exact List.mem_map_of_mem hg
      · rw [List.mem_singleton.mp hg]
        refine ⟨items, new, [], rfl, fun b hb heq => hnone ?_, by simp⟩
        rw [← heq]
        exact mem_texts_collect hb

end SchemaDedup

end Lineage
