import Lineage.Traversal.Basic

/-! Complete traversals. `walk` is the recursive pre-order walk; `descendants` keeps the open levels
on a stack and yields the same nodes. -/

namespace Lineage

/-- Yields the entries below `base` from left to right, each followed by what `inside` makes of it.
-/
def Entrances.walkEntries (inside : Node → Entrances → List Node × Entrances) (base : Pointer) :
    List (Segment × Tree) → Entrances → List Node × Entrances
  | [], e => ([], e)
  | entry :: rest, e =>
    let (node, e) := e.yield base entry
    let (below, e) := inside node e
    let (after, e) := walkEntries inside base rest e
    (node :: below ++ after, e)

namespace Heap

/-- The pre-order walk below a node, at most `depth` levels down. -/
def walkBelow (h : Heap) : Nat → Node → Entrances → List Node × Entrances
  | 0, _, e => ([], e)
  | depth + 1, n, e =>
    if n.exposed then Entrances.walkEntries (h.walkBelow depth) n.pointer (h.entries n.value) e
    else ([], e)

/-- The containers entered along a path are distinct, so no path is longer than the heap is large.
-/
def walkDepth (h : Heap) : Nat := h.size + 1

/-- The pre-order walk of what a cursor yields. -/
def walk (h : Heap) (c : Cursor) (e : Entrances) : List Node × Entrances :=
  let own := (c.scalar.map (Cursor.scalarNode c.base)).toList
  let (below, e) := Entrances.walkEntries (h.walkBelow h.walkDepth) c.base c.rest e
  (own ++ below, e)

/-- The nodes yielded from a stack of open levels, innermost first, within a number of steps. -/
def drain (h : Heap) : Nat → List Cursor → Entrances → List Node
  | 0, _, _ => []
  | _ + 1, [], _ => []
  | steps + 1, top :: stack, e =>
    match top.next? e with
    | some (node, top, e) => node :: h.drain steps (h.children node :: top :: stack) e
    | none => h.drain steps stack e

/-- The number of members and items of all containers. -/
def memberCount (h : Heap) : Nat := (h.cells.toList.map Container.size).foldl (· + ·) 0

/-- Every node of a traversal, parents first. Each container opens once, and each node and each
level takes one step. -/
def descendants (h : Heap) (t : Tree) : List Node :=
  let (c, e) := h.visit t
  h.drain (2 * (h.memberCount + 1) + 1) [c] e

/-- The childless nodes yielded from a stack of open levels, innermost first, within a number of
steps. Other nodes are opened and not yielded. -/
def drainLeaves (h : Heap) : Nat → List Cursor → Entrances → List Node
  | 0, _, _ => []
  | _ + 1, [], _ => []
  | steps + 1, top :: stack, e =>
    match top.next? e with
    | some (node, top, e) =>
      if h.isChildless node then node :: h.drainLeaves steps (top :: stack) e
      else h.drainLeaves steps (h.children node :: top :: stack) e
    | none => h.drainLeaves steps stack e

/-- The nodes of a traversal that have no members of their own. -/
def leaves (h : Heap) (t : Tree) : List Node :=
  let (c, e) := h.visit t
  h.drainLeaves (2 * (h.memberCount + 1) + 1) [c] e

end Heap

end Lineage
