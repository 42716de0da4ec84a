import Lineage.Number.Basic
import Lineage.OrderedMap
import Lineage.Pointer.Basic
import Lineage.Text.Quoted

/-! Document trees. Objects and arrays are containers of a heap and a tree names them by identity,
so that trees may share containers and even contain themselves. Scalars are plain values. -/

namespace Lineage

/-- The identity of a container: its place in the heap, which is never given to another one. -/
abbrev ContainerId := Nat

inductive Tree where
  | null
  | bool (value : Bool)
  | number (value : Number)
  | string (text : String)
  | container (id : ContainerId)
deriving DecidableEq, Inhabited

/-- What a container holds: members in the order of their first insertion, or items. -/
inductive Container where
  | object (members : OrderedMap String Tree)
  | array (items : List Tree)
deriving DecidableEq, Inhabited

/-- All containers that were ever made, oldest first. -/
structure Heap where
  cells : Array Container := #[]
deriving DecidableEq, Inhabited

namespace Tree

def id? : Tree → Option ContainerId
  | .container id => some id
  | _ => none

def isComposite (t : Tree) : Bool := t.id?.isSome

def text? : Tree → Option String
  | .string text => some text
  | _ => none

/-- Whether two trees are one container; scalars never are. -/
def sameContainer (t u : Tree) : Bool :=
  match t.id?, u.id? with
  | some i, some j => i == j
  | _, _ => false

/-- Only finite numbers are kept; anything else becomes null. -/
def ofBinary64 (x : Binary64) : Tree :=
  match Number.ofBinary64? x with
  | some n => .number n
  | none => .null

end Tree

namespace Container

def emptyObject : Container := .object .empty

def emptyArray : Container := .array []

def size : Container → Nat
  | .object members => members.size
  | .array items => items.length

def isArray : Container → Bool
  | .object _ => false
  | .array _ => true

/-- Items with their positions, counted from the given one. -/
def indexed (start : Nat) : List Tree → List (Segment × Tree)
  | [] => []
  | t :: ts => (.index start, t) :: indexed (start + 1) ts

/-- Members under their names, or items under their positions. -/
def entries : Container → List (Segment × Tree)
  | .object members => members.entries.map fun e => (.key e.1, e.2)
  | .array items => indexed 0 items

/-- A segment finds a member by its token and an item by its index. -/
def member? (c : Container) (s : Segment) : Option Tree :=
  match c with
  | .object members => members.get? s.token
  | .array items => s.asIndex.bind fun i => items[i]?

end Container

namespace Heap

def get? (h : Heap) (id : ContainerId) : Option Container := h.cells[id]?

def size (h : Heap) : Nat := h.cells.size

/-- The identity of the new container, and the heap that holds it. -/
def alloc (h : Heap) (c : Container) : ContainerId × Heap := (h.cells.size, ⟨h.cells.push c⟩)

/-- Replaces what a container holds. -/
def set (h : Heap) (id : ContainerId) (c : Container) : Heap := ⟨h.cells.setIfInBounds id c⟩

def container? (h : Heap) (t : Tree) : Option Container := t.id?.bind h.get?

/-- The number of members or items; none for scalars. -/
def length (h : Heap) (t : Tree) : Nat := ((h.container? t).map Container.size).getD 0

def isArray (h : Heap) (t : Tree) : Bool := ((h.container? t).map Container.isArray).getD false

def entries (h : Heap) (t : Tree) : List (Segment × Tree) :=
  ((h.container? t).map Container.entries).getD []

def member? (h : Heap) (t : Tree) (s : Segment) : Option Tree :=
  (h.container? t).bind (·.member? s)

/-- Follows segments down from a tree. -/
def follow? (h : Heap) (t : Tree) : List Segment → Option Tree
  | [] => some t
  | s :: rest => (h.member? t s).bind fun u => h.follow? u rest

def resolve? (h : Heap) (t : Tree) (p : Pointer) : Option Tree := h.follow? t p.segments

/-- Inserts a member and tells the value it replaces. Only objects have members. -/
def insert (h : Heap) (t : Tree) (name : String) (value : Tree) : Option Tree × Heap :=
  match t with
  | .container id =>
    match h.get? id with
    | some (.object members) => (members.get? name, h.set id (.object (members.insert name value)))
    | _ => (none, h)
  | _ => (none, h)

/-- Adds an item last and tells whether there is an array to add it to. -/
def push (h : Heap) (t : Tree) (value : Tree) : Bool × Heap :=
  match t with
  | .container id =>
    match h.get? id with
    | some (.array items) => (true, h.set id (.array (items ++ [value])))
    | _ => (false, h)
  | _ => (false, h)

/-- A one-line summary: scalars with their value, composites with their length alone. -/
def summary (h : Heap) (t : Tree) : String :=
  match t with
  | .null => "Null"
  | .bool value => "Bool(" ++ (if value then "true" else "false") ++ ")"
  | .number value => "Number(" ++ value.render ++ ")"
  | .string text => "String(" ++ Text.quoted text ++ ")"
  | .container _ =>
    (if h.isArray t then "Array" else "Object") ++ "(len=" ++ Nat.repr (h.length t) ++ ")"

@[simp] theorem get?_alloc (h : Heap) (c : Container) (id : ContainerId) :
    (h.alloc c).2.get? id = if id = h.size then some c else h.get? id := by
  by_cases hi : id = h.size <;> simp_all [get?, alloc, size, Array.getElem?_push]

@[simp] theorem get?_set (h : Heap) (id other : ContainerId) (c : Container) :
    (h.set id c).get? other = if id = other ∧ id < h.size then some c else h.get? other := by
  simp only [get?, set, size, Array.getElem?_setIfInBounds]
  by_cases h₁ : id = other <;> by_cases h₂ : other < h.cells.size <;> simp_all

@[simp] theorem size_alloc (h : Heap) (c : Container) : (h.alloc c).2.size = h.size + 1 := by
  simp [size, alloc]

@[simp] theorem size_set (h : Heap) (id : ContainerId) (c : Container) :
    (h.set id c).size = h.size := by
  simp [size, set]

end Heap

end Lineage
