import Lineage.Traversal.Walk

/-! Deep copies. A container is copied when it is first met and its copy is known from then on, while
it is still being filled, so the copy shares and contains itself exactly where the tree does. -/

namespace Lineage

/-- The container with a value under the token of a key, or behind the last item. -/
def Container.store (c : Container) (key : Segment) (value : Tree) : Container :=
  match c with
  | .object members => .object (members.insert key.token value)
  | .array items => .array (items ++ [value])

def Heap.store (h : Heap) (id : ContainerId) (key : Segment) (value : Tree) : Heap :=
  match h.get? id with
  | some c => h.set id (c.store key value)
  | none => h

/-- A deep copy in progress: the heap with the copies made so far, and which containers they copy. -/
structure Copying where
  heap : Heap
  copies : OrderedMap ContainerId ContainerId := .empty

namespace Copying

/-- Makes a new container without members the copy of another one. -/
def enter (s : Copying) (id : ContainerId) (c : Container) : ContainerId × Copying :=
  let (copy, heap) := s.heap.alloc (if c.isArray then .emptyArray else .emptyObject)
  (copy, ⟨heap, s.copies.insert id copy⟩)

/-- Copies members from left to right, and stores each copy before it turns to the next member. -/
def fill (inside : Tree → Copying → Option (Tree × Copying)) (copy : ContainerId) :
    List (Segment × Tree) → Copying → Option Copying
  | [], s => some s
  | entry :: rest, s => do
    let (value, s) ← inside entry.2 s
    fill inside copy rest { s with heap := s.heap.store copy entry.1 value }

/-- Copies a tree in which no path enters more than `depth` containers that have no copy yet. -/
def copyWithin (depth : Nat) (t : Tree) (s : Copying) : Option (Tree × Copying) :=
  match t with
  | .container id =>
    match s.copies.get? id, s.heap.get? id, depth with
    | some copy, _, _ => some (.container copy, s)
    | none, none, _ => some (.container id, s)
    | none, some _, 0 => none
    | none, some c, depth + 1 => do
      let (copy, s) := s.enter id c
      let s ← fill (copyWithin depth) copy c.entries s
      return (.container copy, s)
  | t => some (t, s)

end Copying

/-- A copy made of new containers only. The containers entered along a path are distinct, so the depth
is never reached. -/
def Heap.duplicate (h : Heap) (t : Tree) : Tree × Heap :=
  match Copying.copyWithin h.walkDepth t ⟨h, .empty⟩ with
  | some (copy, s) => (copy, s.heap)
  | none => (t, h)

end Lineage
