import Lineage.Provenance.Table
import Lineage.Traversal.Walk

/-! What handles refer to: containers, mapping tables and traversals. Each is made once and then
changed in place, so that all holders of a handle see the same thing. -/

namespace Lineage

abbrev TableId := Nat

abbrev TraversalId := Nat

structure Workspace where
  heap : Heap := {}
  tables : Array MappingTable := #[]
  traversals : Array Entrances := #[]
deriving Inhabited

/-- Where guarded writes deliver their mappings. -/
structure Sink where
  table : TableId
  /-- Whether writes are delivered without asking if the table is sealed. -/
  unconditional : Bool := false
deriving DecidableEq, Inhabited

namespace Workspace

def alloc (w : Workspace) (c : Container) : ContainerId × Workspace :=
  let (id, heap) := w.heap.alloc c
  (id, { w with heap })

def newTable (w : Workspace) : TableId × Workspace :=
  (w.tables.size, { w with tables := w.tables.push {} })

def table? (w : Workspace) (id : TableId) : Option MappingTable := w.tables[id]?

def tableEntries (w : Workspace) (id : TableId) : List Mapping :=
  ((w.table? id).map (·.entries)).getD []

def modifyTable (w : Workspace) (id : TableId) (f : MappingTable → MappingTable) : Workspace :=
  { w with tables := w.tables.modify id f }

def accepts (w : Workspace) (s : Sink) : Bool :=
  match w.table? s.table with
  | some t => s.unconditional || t.isOpen
  | none => false

/-- Starts a traversal of a tree. -/
def visit (w : Workspace) (t : Tree) : (TraversalId × Cursor) × Workspace :=
  let (c, e) := w.heap.visit t
  ((w.traversals.size, c), { w with traversals := w.traversals.push e })

/-- Runs a step of a traversal on the containers it has entered so far. -/
def traverse {α : Type} (w : Workspace) (id : TraversalId) (step : Entrances → α × Entrances) :
    α × Workspace :=
  let (a, e) := step ((w.traversals[id]?).getD .empty)
  (a, { w with traversals := w.traversals.setIfInBounds id e })

/-- The next node of a cursor and the cursor after it; the cursor itself at the end. -/
def next (w : Workspace) (id : TraversalId) (c : Cursor) : (Option Node × Cursor) × Workspace :=
  w.traverse id fun e =>
    match c.next? e with
    | some (node, c, e) => ((some node, c), e)
    | none => ((none, c), e)

/-- All nodes below a node, parents first. -/
def walk (w : Workspace) (id : TraversalId) (n : Node) : List Node × Workspace :=
  w.traverse id (w.heap.walk (w.heap.children n))

end Workspace

end Lineage
