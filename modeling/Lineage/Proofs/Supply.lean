import Lineage.Distinct
import Lineage.OrderedMap
import Mathlib.Data.List.Basic
import Mathlib.Data.List.Forall2
import Mathlib.Data.List.Induction

/-! Maps that are filled from a list of entries. A key stays where it first came and has the value that
came last for it, so that the entries can be read off the list without filling a map. Lists that are
converted as a whole are converted element by element. -/

namespace Lineage

theorem mapM_eq_some_iff {α β : Type} {f : α → Option β} {xs : List α} {ys : List β} :
    xs.mapM f = some ys ↔ List.Forall₂ (fun x y => f x = some y) xs ys := by
  induction xs generalizing ys with
  | nil => cases ys <;> simp
  | cons x xs ih =>
    rw [List.mapM_cons]
    constructor
    · intro heq
      obtain ⟨y, hy, htail⟩ := Option.bind_eq_some_iff.mp heq
      obtain ⟨zs, hzs, hcons⟩ := Option.bind_eq_some_iff.mp htail
      cases hcons
      exact .cons hy (ih.mp hzs)
    · rintro (_ | ⟨hy, hrest⟩)
      simp [hy, ih.mpr hrest]

theorem isSome_mapM_iff {α β : Type} {f : α → Option β} {xs : List α} :
    (xs.mapM f).isSome = true ↔ ∀ x ∈ xs, (f x).isSome = true := by
  induction xs with
  | nil => simp
  | cons x xs ih =>
    rw [List.mapM_cons, List.forall_mem_cons, ← ih]
    cases f x <;> cases xs.mapM f <;> simp

theorem exists_of_mem_left {α β : Type} {r : α → β → Prop} {xs : List α} {ys : List β} {x : α}
    (h : List.Forall₂ r xs ys) (hx : x ∈ xs) : ∃ y ∈ ys, r x y := by
  induction h with
  | nil => cases hx
  | cons hr _ ih =>
    rcases List.mem_cons.mp hx with rfl | hx
    · exact ⟨_, List.mem_cons_self, hr⟩
    · obtain ⟨y, hy, hr⟩ := ih hx
      exact ⟨y, List.mem_cons_of_mem _ hy, hr⟩

theorem exists_of_mem_right {α β : Type} {r : α → β → Prop} {xs : List α} {ys : List β} {y : β}
    (h : List.Forall₂ r xs ys) (hy : y ∈ ys) : ∃ x ∈ xs, r x y := exists_of_mem_left h.flip hy

/-- Another element stays at the end, unless it was seen or is there already. -/
theorem distinctFrom_concat {α : Type} [DecidableEq α] (seen xs : List α) (x : α) :
    distinctFrom (· == ·) seen (xs ++ [x]) =
      if x ∈ seen ++ xs then distinctFrom (· == ·) seen xs
      else distinctFrom (· == ·) seen xs ++ [x] := by
  have hany : ∀ (ys : List α) (y : α), (ys.any (· == y)) = true ↔ y ∈ ys := by simp
  induction xs generalizing seen with
  | nil => simp [distinctFrom, hany]
  | cons a rest ih =>
    rw [List.cons_append]
    unfold distinctFrom
    by_cases ha : a ∈ seen
    · rw [if_pos ((hany seen a).mpr ha), if_pos ((hany seen a).mpr ha), ih]
      have hmem : x ∈ seen ++ rest ↔ x ∈ seen ++ a :: rest := by
        simp only [List.mem_append, List.mem_cons]
        constructor
        · rintro (h | h)
          · exact .inl h
          · exact .inr (.inr h)
        · rintro (h | rfl | h)
          · exact .inl h
          · exact .inl ha
          · exact .inr h
      simp only [hmem]
    · rw [if_neg (mt (hany seen a).mp ha), if_neg (mt (hany seen a).mp ha), ih, List.append_assoc,
        List.singleton_append]
      split <;> rfl

theorem distinctBy_concat {α : Type} [DecidableEq α] (xs : List α) (x : α) :
    distinctBy (· == ·) (xs ++ [x]) =
      if x ∈ xs then distinctBy (· == ·) xs else distinctBy (· == ·) xs ++ [x] :=
  distinctFrom_concat [] xs x

theorem mem_distinctBy_iff {α : Type} [DecidableEq α] {xs : List α} {x : α} :
    x ∈ distinctBy (· == ·) xs ↔ x ∈ xs := by
  refine ⟨fun h => (distinctFrom_sublist _ _ _).subset h, fun h => ?_⟩
  obtain ⟨y, hy, hsame⟩ := exists_same_of_mem (· == ·) (fun x => beq_self_eq_true x) [] _ h
  rwa [← beq_iff_eq.mp hsame]

namespace OrderedMap

variable {κ α : Type} [DecidableEq κ]

/-- Every key once, in the order in which the keys first came, with the value that came last for it. -/
def lastByKey (es : List (κ × α)) : List (κ × α) :=
  (distinctBy (· == ·) (es.map Prod.fst)).filterMap fun k => (find k es.reverse).map (k, ·)

theorem keys_put (k : κ) (v : α) (es : List (κ × α)) : (put k v es).map Prod.fst =
    if k ∈ es.map Prod.fst then es.map Prod.fst else es.map Prod.fst ++ [k] := by
  induction es with
  | nil => simp [put]
  | cons e rest ih =>
    obtain ⟨k', v'⟩ := e
    unfold put
    by_cases hk : k' = k
    · simp [hk]
    · rw [if_neg hk, List.map_cons, ih]
      simp only [List.map_cons, List.mem_cons, Ne.symm hk, false_or, List.cons_append]
      split <;> rfl

theorem ofList_concat (es : List (κ × α)) (e : κ × α) :
    ofList (es ++ [e]) = (ofList es).insert e.1 e.2 := by
  simp [ofList]

/-- Entries with distinct keys are those of the map that is made of them. -/
theorem entries_ofList_of_nodup {es : List (κ × α)} (hn : (es.map Prod.fst).Nodup) :
    (ofList es).entries = es := by
  induction es using List.reverseRecOn with
  | nil => rfl
  | append_singleton es e ih =>
    rw [List.map_append, List.map_singleton, List.nodup_append] at hn
    have hnew : e.1 ∉ es.map Prod.fst := fun hmem => hn.2.2 _ hmem _ (List.mem_singleton_self _) rfl
    rw [ofList_concat, entries_insert, ih hn.1, put_of_notMem _ _ _ hnew]

theorem keys_ofList (es : List (κ × α)) :
    (ofList es).keys = distinctBy (· == ·) (es.map Prod.fst) := by
  induction es using List.reverseRecOn with
  | nil => rfl
  | append_singleton es e ih =>
    have hput : ((ofList es).insert e.1 e.2).keys =
        if e.1 ∈ (ofList es).keys then (ofList es).keys else (ofList es).keys ++ [e.1] :=
      keys_put e.1 e.2 _
    rw [ofList_concat, hput, ih, List.map_append, List.map_singleton, distinctBy_concat]
    exact if_congr mem_distinctBy_iff rfl rfl

theorem get?_ofList (es : List (κ × α)) (k : κ) : (ofList es).get? k = find k es.reverse := by
  induction es using List.reverseRecOn with
  | nil => rfl
  | append_singleton es e ih =>
    rw [ofList_concat, get?_insert, List.reverse_append, List.reverse_singleton,
      List.singleton_append, find, ih]

/-- A map is its keys with what it has under them. -/
theorem entries_eq_filterMap_keys (m : OrderedMap κ α) :
    m.entries = m.keys.filterMap fun k => (m.get? k).map (k, ·) := by
  obtain ⟨es, hn⟩ := m
  simp only [keys, get?]
  induction es with
  | nil => rfl
  | cons e rest ih =>
    obtain ⟨k, v⟩ := e
    rw [List.map_cons, List.nodup_cons] at hn
    rw [List.map_cons, List.filterMap_cons_some (by rw [find, if_pos rfl]; rfl)]
    congr 1
    -- the other keys are looked up past the first entry
    have hrest : ∀ k' ∈ rest.map Prod.fst, find k' ((k, v) :: rest) = find k' rest := by
      intro k' hk'
      rw [find, if_neg]
      rintro rfl
      exact hn.1 hk'
    conv_lhs => rw [ih hn.2]
    exact List.filterMap_congr fun k' hk' => by rw [hrest k' hk']

theorem entries_ofList (es : List (κ × α)) : (ofList es).entries = lastByKey es := by
  rw [entries_eq_filterMap_keys, keys_ofList, lastByKey]
  simp only [get?_ofList]

end OrderedMap

end Lineage
