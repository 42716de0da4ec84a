import Lineage.Tree.Basic

/-! Lazy traversal of trees that may share and contain themselves. A traversal remembers where it
entered each container. A position exposes the members of its container when the container was
entered there, or is entered there now; any other position that holds the container exposes nothing.
-/

namespace Lineage

/-- Where each container was entered. -/
abbrev Entrances := OrderedMap ContainerId Pointer

/-- Enters a container at a position, unless it was entered before; tells whether it was entered at
this very position. -/
def Entrances.enter (e : Entrances) (id : ContainerId) (p : Pointer) : Bool × Entrances :=
  match e.get? id with
  | some q => (q == p, e)
  | none => (true, e.insert id p)

/-- One position of a traversed tree. -/
structure Node where
  key : Segment
  value : Tree
  pointer : Pointer
  /-- Whether the members of the value belong to this position. -/
  exposed : Bool
deriving DecidableEq, Inhabited

/-- What a traversal has still to yield at one level. -/
structure Cursor where
  /-- A scalar at the root, which is yielded itself. -/
  scalar : Option Tree := none
  base : Pointer := .root
  rest : List (Segment × Tree) := []
deriving DecidableEq, Inhabited

/-- The node of an entry below `base`. -/
def Entrances.yield (e : Entrances) (base : Pointer) (entry : Segment × Tree) : Node × Entrances :=
  let pointer := base.append entry.1
  match entry.2.id? with
  | some id =>
    let (exposed, e) := e.enter id pointer
    (⟨entry.1, entry.2, pointer, exposed⟩, e)
  | none => (⟨entry.1, entry.2, pointer, false⟩, e)

namespace Cursor

/-- The node of a scalar that is the whole tree. -/
def scalarNode (base : Pointer) (t : Tree) : Node := ⟨.key "", t, base, false⟩

/-- The next node, what is left to yield, and the containers entered by then. -/
def next? (c : Cursor) (e : Entrances) : Option (Node × Cursor × Entrances) :=
  match c.scalar with
  | some t => some (scalarNode c.base t, { c with scalar := none }, e)
  | none =>
    match c.rest with
    | [] => none
    | entry :: rest =>
      let (node, e) := e.yield c.base entry
      some (node, { c with rest }, e)

/-- The number of nodes still to be yielded. -/
def remaining (c : Cursor) : Nat := c.rest.length + if c.scalar.isSome then 1 else 0

end Cursor

namespace Heap

/-- The members of a node as they are now; none where they are withheld. -/
def children (h : Heap) (n : Node) : Cursor :=
  if n.exposed then { base := n.pointer, rest := h.entries n.value } else {}

def isChildless (h : Heap) (n : Node) : Bool := !n.exposed || h.length n.value == 0

/-- Whether members are withheld at a node. -/
def isPruned (h : Heap) (n : Node) : Bool :=
  n.value.isComposite && h.length n.value != 0 && h.isChildless n

/-- The start of a traversal. The root container is entered at the root; a scalar yields itself. -/
def visit (h : Heap) (t : Tree) : Cursor × Entrances :=
  match t with
  | .container id => ({ rest := h.entries t }, OrderedMap.empty.insert id .root)
  | t => ({ scalar := some t }, .empty)

end Heap

end Lineage
