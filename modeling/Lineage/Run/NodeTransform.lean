import Lineage.Run.Transform

/-! Transforms that look at one node at a time. A node that is not claimed is copied as it is: a
composite is made anew and walked further, a scalar is written. Where the traversal withholds
members, the copy is an empty container. -/

namespace Lineage

structure NodeTransform (σ τ : Type) where
  prepare : Hook σ τ Unit := pure ()
  /-- Handles a node, or leaves it to be copied by answering false. -/
  claim : Proxy → TraversalId → Node → Hook σ τ Bool
  conclude : Hook σ τ Unit := pure ()

/-- More containers than any memory holds. -/
def containerLimit : Nat := Nat.pow 2 64

namespace NodeTransform

variable {σ τ : Type}

/-- Array items are renumbered without gaps; members keep their names. -/
def copyKey (h : Heap) (target : Proxy) (n : Node) : Segment :=
  if h.isArray target.tree then .index (h.length target.tree) else n.key

/-- Handles a node and what is at most `depth` levels below it. -/
def handle (t : NodeTransform σ τ) (visit : TraversalId) :
    (depth : Nat) → Proxy → Node → Hook σ τ Unit
  | depth, target, n => do
    if ← t.claim target visit n then return
    let h ← Hook.heap
    let key := copyKey h target n
    if !n.value.isComposite then Run.place target key n.pointer n.value false
    else
      let c := if h.isArray n.value then Container.emptyArray else Container.emptyObject
      let child ← Run.allocate c target key n.pointer
      match depth with
      | 0 => pure ()
      | depth + 1 => Hook.forMembers visit n fun m => handle t visit depth child m

/-- The containers on the way down to a node are distinct, so the depth is bounded by the number of
those that exist and those that the hooks can still add. -/
def toTransform (t : NodeTransform σ τ) : Transform σ τ where
  prepare := t.prepare
  process target visit nodes := do
    let depth := (← Hook.heap).size + containerLimit
    Hook.forNodes visit nodes (t.handle visit depth target)
  conclude := t.conclude

/-- Claims nothing, so that the output is a copy of the inputs with full provenance. -/
def identity : NodeTransform σ τ where
  claim _ _ _ := pure false

end NodeTransform

end Lineage
