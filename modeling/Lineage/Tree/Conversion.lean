import Lineage.Json.Basic
import Lineage.Tree.Basic
import Lineage.Yaml.Text

/-! Trees from JSON and YAML values, and back to JSON. A tree built from a value shares nothing. The
way back unfolds shared containers wherever they occur, and fails on a tree that contains itself. -/

namespace Lineage.Heap

mutual

/-- Builds the tree of a JSON value from new containers. -/
def addJson (h : Heap) : Json → Tree × Heap
  | .null => (.null, h)
  | .bool value => (.bool value, h)
  | .number value => (.number value, h)
  | .string text => (.string text, h)
  | .array items =>
    let (items, h) := addJsonItems h items
    let (id, h) := h.alloc (.array items)
    (.container id, h)
  | .object members =>
    let (members, h) := addJsonMembers h members
    let (id, h) := h.alloc (.object (.ofList members))
    (.container id, h)

def addJsonItems (h : Heap) : List Json → List Tree × Heap
  | [] => ([], h)
  | item :: rest =>
    let (t, h) := addJson h item
    let (ts, h) := addJsonItems h rest
    (t :: ts, h)

def addJsonMembers (h : Heap) : List (String × Json) → List (String × Tree) × Heap
  | [] => ([], h)
  | (name, value) :: rest =>
    let (t, h) := addJson h value
    let (ts, h) := addJsonMembers h rest
    ((name, t) :: ts, h)

end

mutual

/-- Builds the tree of a YAML value from new containers. Tags are dropped, and keys become texts: of
entries with one text the last value stands at the first place. -/
def addYaml (h : Heap) : Yaml → Tree × Heap
  | .null => (.null, h)
  | .bool value => (.bool value, h)
  | .integer value fits => (.number (.integer value fits), h)
  | .float value => (Tree.ofBinary64 value, h)
  | .string text => (.string text, h)
  | .sequence items =>
    let (items, h) := addYamlItems h items
    let (id, h) := h.alloc (.array items)
    (.container id, h)
  | .mapping entries =>
    let (members, h) := addYamlEntries h entries
    let (id, h) := h.alloc (.object (.ofList members))
    (.container id, h)
  | .tagged _ value => addYaml h value

def addYamlItems (h : Heap) : List Yaml → List Tree × Heap
  | [] => ([], h)
  | item :: rest =>
    let (t, h) := addYaml h item
    let (ts, h) := addYamlItems h rest
    (t :: ts, h)

def addYamlEntries (h : Heap) : List (Yaml × Yaml) → List (String × Tree) × Heap
  | [] => ([], h)
  | (key, value) :: rest =>
    let (t, h) := addYaml h value
    let (ts, h) := addYamlEntries h rest
    ((key.keyText, t) :: ts, h)

end

/-- The text of the failure to write a tree that contains itself. -/
def cycleMessage : String := "tree contains a cycle"

/-- One more open container is one container less that can still be opened. -/
theorem unopened_cons_lt (h : Heap) {opened : List ContainerId} {id : ContainerId} {c : Container}
    (hopen : id ∉ opened) (hc : h.get? id = some c) :
    ((List.range h.size).filter (· ∉ id :: opened)).length <
      ((List.range h.size).filter (· ∉ opened)).length := by
  have hlt : id < h.size := (Array.getElem?_eq_some_iff.mp hc).1
  have hfilter : (List.range h.size).filter (· ∉ id :: opened) =
      ((List.range h.size).filter (· ∉ opened)).filter (· ≠ id) := by
    rw [List.filter_filter]
    exact List.filter_congr fun i _ => by simp
  rw [hfilter, List.length_filter_lt_length_iff_exists]
  exact ⟨id, by simpa using ⟨hlt, hopen⟩, by simp⟩

/-- The JSON value of a tree inside open containers. A tree that comes back to one of them fails. -/
@[semireducible] def serialize (h : Heap) (opened : List ContainerId) (t : Tree) : Option Json :=
  match t with
  | .null => some .null
  | .bool value => some (.bool value)
  | .number value => some (.number value)
  | .string text => some (.string text)
  | .container id =>
    if _ : id ∈ opened then none
    else
      match _ : h.get? id with
      | some (.object members) =>
        (members.entries.mapM fun e => (h.serialize (id :: opened) e.2).map (e.1, ·)).map .object
      | some (.array items) => (items.mapM (h.serialize (id :: opened))).map .array
      | none => some (.object [])
termination_by ((List.range h.size).filter (· ∉ opened)).length
decreasing_by all_goals exact h.unopened_cons_lt ‹_› ‹_›

/-- The JSON value of a tree, in which shared containers are written out wherever they occur. -/
def toJson? (h : Heap) (t : Tree) : Option Json := h.serialize [] t

end Lineage.Heap
