import Lineage.Proofs.Pointer.Index
import Lineage.Tree.Basic

/-! Members of containers. A segment finds the entry with its token, tokens of entries are distinct,
and a container takes a new member only under a token that finds nothing yet. The items of an array
have an index as long as there are no more of them than indices. -/

namespace Lineage

namespace OrderedMap

variable {κ α : Type} [DecidableEq κ]

theorem find_of_mem {k : κ} {v : α} {es : List (κ × α)} (hn : (es.map Prod.fst).Nodup)
    (h : (k, v) ∈ es) : find k es = some v := by
  induction es with
  | nil => cases h
  | cons e rest ih =>
    obtain ⟨k', v'⟩ := e
    rw [List.map_cons, List.nodup_cons] at hn
    unfold find
    rcases List.mem_cons.mp h with heq | hmem
    · cases heq; simp
    · have hk : k ∈ rest.map Prod.fst := List.mem_map_of_mem (f := Prod.fst) hmem
      have hne : k' ≠ k := fun he => hn.1 (he ▸ hk)
      rw [if_neg hne, ih hn.2 hmem]

theorem mem_of_find {k : κ} {v : α} {es : List (κ × α)} (h : find k es = some v) : (k, v) ∈ es := by
  induction es with
  | nil => cases h
  | cons e rest ih =>
    unfold find at h
    split at h
    · cases h
      subst k
      exact List.mem_cons_self
    · exact List.mem_cons_of_mem _ (ih h)

end OrderedMap

namespace Container

/-- Every item has an index. -/
def Indexable : Container → Prop
  | .object _ => True
  | .array items => items.length ≤ indexBound

/-- Members are found by their tokens. -/
theorem member?_congr (c : Container) {s u : Segment} (h : s.token = u.token) :
    c.member? s = c.member? u := by
  cases c with
  | object members => simp only [member?, h]
  | array items => simp only [member?, Segment.asIndex_eq_readIndex?, h]

theorem indexable_of_size_eq_zero {c : Container} (h : c.size = 0) : c.Indexable := by
  cases c with
  | object members => trivial
  | array items => exact Nat.le_trans (Nat.le_of_eq h) (Nat.zero_le _)

theorem member?_of_size_eq_zero {c : Container} (h : c.size = 0) (s : Segment) :
    c.member? s = none := by
  cases c with
  | object members =>
    have hm : members.entries = [] := List.eq_nil_of_length_eq_zero h
    simp [member?, OrderedMap.get?, OrderedMap.find, hm]
  | array items =>
    have hi : items = [] := List.eq_nil_of_length_eq_zero h
    simp [member?, hi]

theorem mem_indexed {start : Nat} {ts : List Tree} {e : Segment × Tree} :
    e ∈ indexed start ts ↔ ∃ i, ts[i]? = some e.2 ∧ e.1 = .index (start + i) := by
  induction ts generalizing start with
  | nil => simp [indexed]
  | cons t rest ih =>
    rw [indexed, List.mem_cons, ih]
    constructor
    · rintro (rfl | ⟨i, ht, hs⟩)
      · exact ⟨0, rfl, rfl⟩
      · exact ⟨i + 1, ht, by rw [hs]; congr 1; omega⟩
    · rintro ⟨i, ht, hs⟩
      cases i with
      | zero => exact .inl (Prod.ext hs (by simpa using ht.symm))
      | succ i => exact .inr ⟨i, ht, by rw [hs]; congr 1; omega⟩

theorem length_indexed (start : Nat) (ts : List Tree) : (indexed start ts).length = ts.length := by
  induction ts generalizing start with
  | nil => rfl
  | cons t ts ih => rw [indexed, List.length_cons, List.length_cons, ih]

theorem length_entries (c : Container) : c.entries.length = c.size := by
  cases c with
  | object members => simp [entries, size, OrderedMap.size]
  | array items => exact length_indexed 0 items

theorem indexed_append (start : Nat) (ts us : List Tree) :
    indexed start (ts ++ us) = indexed start ts ++ indexed (start + ts.length) us := by
  induction ts generalizing start with
  | nil => rfl
  | cons t ts ih =>
    rw [List.cons_append, indexed, ih, indexed, List.length_cons, List.cons_append,
      Nat.add_right_comm, Nat.add_assoc]

theorem member?_of_mem_entries {c : Container} (hc : c.Indexable) {e : Segment × Tree}
    (he : e ∈ c.entries) : c.member? e.1 = some e.2 := by
  cases c with
  | object members =>
    obtain ⟨m, hm, rfl⟩ := List.mem_map.mp he
    exact OrderedMap.find_of_mem members.nodup hm
  | array items =>
    obtain ⟨i, ht, hs⟩ := mem_indexed.mp he
    have hlen : i < items.length := (List.getElem?_eq_some_iff.mp ht).1
    have hi : i < indexBound := Nat.lt_of_lt_of_le hlen hc
    have hidx : e.1.asIndex = some i := by
      rw [hs, Nat.zero_add]
      exact if_pos hi
    simp only [member?, hidx, Option.bind_some, ht]

theorem nodup_tokens_indexed (start : Nat) (ts : List Tree) :
    ((indexed start ts).map (·.1.token)).Nodup := by
  induction ts generalizing start with
  | nil => simp [indexed]
  | cons t rest ih =>
    rw [indexed, List.map_cons, List.nodup_cons]
    refine ⟨fun h => ?_, ih (start + 1)⟩
    obtain ⟨e, he, htok⟩ := List.mem_map.mp h
    obtain ⟨i, _, hs⟩ := mem_indexed.mp he
    rw [hs] at htok
    have := Segment.repr_inj.mp htok
    omega

/-- No two entries have one token. -/
theorem nodup_tokens_entries (c : Container) : (c.entries.map (·.1.token)).Nodup := by
  cases c with
  | object members => simpa [entries, Function.comp_def] using members.nodup
  | array items => exact nodup_tokens_indexed 0 items

/-- The container with one more member, if there is room for it under the key: a new name of an
object, or the place behind the last item of an array. -/
def add? (c : Container) (key : Segment) (value : Tree) : Option Container :=
  match c with
  | .object members =>
    if members.contains key.token then none
    else some (.object (members.insert key.token value))
  | .array items =>
    if key.asIndex = some items.length then some (.array (items ++ [value])) else none

theorem member?_eq_none_of_add? {c c' : Container} {key : Segment} {v : Tree}
    (h : c.add? key v = some c') : c.member? key = none := by
  cases c with
  | object members =>
    simp only [add?] at h
    split at h
    · cases h
    · rename_i hk
      simpa [OrderedMap.contains, member?] using hk
  | array items =>
    simp only [add?] at h
    split at h
    · rename_i hk
      simp [member?, hk]
    · cases h

/-- The new member stands under its token, and all others stay. -/
theorem member?_add? {c c' : Container} {key : Segment} {v : Tree} (h : c.add? key v = some c')
    (s : Segment) : c'.member? s = if s.token = key.token then some v else c.member? s := by
  cases c with
  | object members =>
    simp only [add?] at h
    split at h
    · cases h
    · cases h
      simp only [member?, OrderedMap.get?_insert, eq_comm]
  | array items =>
    simp only [add?] at h
    split at h
    · rename_i hk
      cases h
      obtain ⟨hkey, hlt⟩ := Segment.asIndex_eq_some_iff.mp hk
      by_cases hs : s.token = key.token
      · have hsi : s.asIndex = some items.length :=
          Segment.asIndex_eq_some_iff.mpr ⟨hs.trans hkey, hlt⟩
        simp [member?, hsi, hs]
      · rw [if_neg hs]
        simp only [member?]
        cases hsi : s.asIndex with
        | none => rfl
        | some i =>
          have hi : i ≠ items.length := by
            rintro rfl
            exact hs ((Segment.asIndex_eq_some_iff.mp hsi).1.trans hkey.symm)
          simp only [Option.bind_some, List.getElem?_append]
          split
          · rfl
          · rw [List.getElem?_eq_none (by simp; omega), List.getElem?_eq_none (by omega)]
    · cases h

theorem Indexable.add? {c c' : Container} {key : Segment} {v : Tree} (hc : c.Indexable)
    (h : c.add? key v = some c') : c'.Indexable := by
  cases c with
  | object members =>
    simp only [Container.add?] at h
    split at h
    · cases h
    · cases h; trivial
  | array items =>
    simp only [Container.add?] at h
    split at h
    · rename_i hk
      cases h
      have := (Segment.asIndex_eq_some_iff.mp hk).2
      simp only [Indexable, List.length_append, List.length_singleton]
      omega
    · cases h

end Container

end Lineage
