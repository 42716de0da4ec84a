/-! Finite maps that list their entries in the order in which the keys were first inserted.
Replacing the value of a present key keeps the key where it is. -/

namespace Lineage

/-- Entries with pairwise distinct keys, oldest key first. -/
structure OrderedMap (κ α : Type) where
  entries : List (κ × α) := []
  nodup : (entries.map Prod.fst).Nodup := by simp
deriving DecidableEq

namespace OrderedMap

variable {κ α β : Type}

/-- Replaces the value of a present key, otherwise adds an entry last. -/
def put [DecidableEq κ] (k : κ) (v : α) : List (κ × α) → List (κ × α)
  | [] => [(k, v)]
  | (k', v') :: rest => if k' = k then (k', v) :: rest else (k', v') :: put k v rest

/-- The value of the first entry with the key. -/
def find [DecidableEq κ] (k : κ) : List (κ × α) → Option α
  | [] => none
  | (k', v) :: rest => if k' = k then some v else find k rest

theorem mem_keys_put [DecidableEq κ] (k : κ) (v : α) (es : List (κ × α)) (x : κ) :
    x ∈ (put k v es).map Prod.fst ↔ x = k ∨ x ∈ es.map Prod.fst := by
  induction es with
  | nil => simp [put]
  | cons e rest ih =>
    obtain ⟨k', v'⟩ := e
    unfold put
    split
    · subst k'; simp
    · simp only [List.map_cons, List.mem_cons, ih]; grind

theorem nodup_keys_put [DecidableEq κ] (k : κ) (v : α) (es : List (κ × α))
    (h : (es.map Prod.fst).Nodup) : ((put k v es).map Prod.fst).Nodup := by
  induction es with
  | nil => simp [put]
  | cons e rest ih =>
    obtain ⟨k', v'⟩ := e
    rw [List.map_cons, List.nodup_cons] at h
    unfold put
    split
    · simpa using h
    · rename_i hk
      rw [List.map_cons, List.nodup_cons, mem_keys_put]
      exact ⟨by simpa [hk] using h.1, ih h.2⟩

def empty : OrderedMap κ α := {}

instance : Inhabited (OrderedMap κ α) := ⟨empty⟩

def keys (m : OrderedMap κ α) : List κ := m.entries.map Prod.fst

def size (m : OrderedMap κ α) : Nat := m.entries.length

def isEmpty (m : OrderedMap κ α) : Bool := m.entries.isEmpty

def get? [DecidableEq κ] (m : OrderedMap κ α) (k : κ) : Option α := find k m.entries

def contains [DecidableEq κ] (m : OrderedMap κ α) (k : κ) : Bool := (m.get? k).isSome

def insert [DecidableEq κ] (m : OrderedMap κ α) (k : κ) (v : α) : OrderedMap κ α where
  entries := put k v m.entries
  nodup := nodup_keys_put k v m.entries m.nodup

/-- Inserts the entries from left to right, so the last value of a key wins at its first place. -/
def ofList [DecidableEq κ] (es : List (κ × α)) : OrderedMap κ α :=
  es.foldl (fun m e => m.insert e.1 e.2) empty

/-- Maps every value and leaves the keys alone. -/
def mapValues (f : α → β) (m : OrderedMap κ α) : OrderedMap κ β where
  entries := m.entries.map fun e => (e.1, f e.2)
  nodup := by simpa [Function.comp_def] using m.nodup

@[simp] theorem entries_empty : (empty : OrderedMap κ α).entries = [] := rfl

@[simp] theorem entries_insert [DecidableEq κ] (m : OrderedMap κ α) (k : κ) (v : α) :
    (m.insert k v).entries = put k v m.entries := rfl

@[ext] theorem ext_entries {m n : OrderedMap κ α} (h : m.entries = n.entries) : m = n := by
  cases m; cases n; cases h; rfl

theorem find_put [DecidableEq κ] (k x : κ) (v : α) (es : List (κ × α)) :
    find x (put k v es) = if k = x then some v else find x es := by
  induction es with
  | nil => simp [put, find]
  | cons e rest ih =>
    obtain ⟨k', v'⟩ := e
    by_cases hk : k' = k
    · subst hk; by_cases h : k' = x <;> simp [put, find, h]
    · by_cases h : k = x
      · subst h; simp [put, find, hk, ih]
      · simp [put, find, hk, h, ih]

theorem get?_insert [DecidableEq κ] (m : OrderedMap κ α) (k x : κ) (v : α) :
    (m.insert k v).get? x = if k = x then some v else m.get? x :=
  find_put k x v m.entries

/-- A key that is not yet present is added last. -/
theorem put_of_notMem [DecidableEq κ] (k : κ) (v : α) (es : List (κ × α))
    (h : k ∉ es.map Prod.fst) : put k v es = es ++ [(k, v)] := by
  induction es with
  | nil => rfl
  | cons e rest ih =>
    simp only [List.map_cons, List.mem_cons, not_or] at h
    simp [put, Ne.symm h.1, ih h.2]

end OrderedMap

end Lineage
