import Lineage.Store.Basic

/-! Blame trees: a position and, below it, the positions it was generated from, stage by stage back
to positions that nothing lies behind. A branch also ends where it reaches the depth bound, where it
comes back to a place it is already explaining, and, in a lenient resolution, where a lookup fails.
-/

namespace Lineage

inductive BlameTree where
  | mk (node : Position) (blaming : List BlameTree)
deriving Inhabited

structure BlameConfig where
  /-- The number of stages followed before a branch is cut off. -/
  maxDepth : UInt64 := 64
  /-- Whether a failure below the starting position ends its branch only. -/
  lenient : Bool := false
deriving DecidableEq, Inhabited

/-- The position whose lookup failed, and why. -/
structure BlameError where
  position : Position
  cause : StoreError
deriving DecidableEq, Inhabited

def BlameError.message (e : BlameError) : String :=
  "cannot resolve blame for " ++ e.position.render ++ ": " ++ e.cause.message

/-- The positions directly behind a position. -/
abbrev Lookup := Position → Except StoreError (List Position)

namespace BlameTree

def node : BlameTree → Position
  | mk node _ => node

def blaming : BlameTree → List BlameTree
  | mk _ blaming => blaming

def leaf (node : Position) : BlameTree := mk node []

def isLeaf (t : BlameTree) : Bool := t.blaming.isEmpty

/-- A place that is being explained, with the length of its pointer at hand. -/
structure OpenPlace where
  position : Position
  length : Nat
  length_eq : length = position.pointer.length
deriving DecidableEq

def OpenPlace.ofPosition (p : Position) : OpenPlace := ⟨p, p.pointer.length, rfl⟩

/-- Whether a position is one of the open places. Pointers of different lengths differ. -/
def isOpen (opened : List OpenPlace) (p : Position) : Bool :=
  let length := p.pointer.length
  opened.any fun o => o.length == length && p.samePlace o.position

theorem isOpen_eq (opened : List OpenPlace) (p : Position) :
    isOpen opened p = opened.any fun o => p.samePlace o.position := by
  refine List.any_congr rfl fun o => ?_
  by_cases h : p.samePlace o.position = true
  · have tokens : p.pointer.tokens = o.position.pointer.tokens := by
      simp only [Position.samePlace, Bool.and_eq_true] at h
      exact Pointer.beq_iff.mp h.2
    have length : o.position.pointer.length = p.pointer.length := by
      simpa [Pointer.tokens, Pointer.length] using (congrArg List.length tokens).symm
    simp [h, o.length_eq, length]
  · simp [h]

/-- Resolves a position with `depth` more stages allowed. The open places are those being explained
on the way from the start; a failing lookup ends the branch here if it is tolerated. -/
def resolve (lookup : Lookup) (lenient : Bool) :
    (depth : Nat) → (tolerant : Bool) → (opened : List OpenPlace) → Position →
      Except BlameError BlameTree
  | depth, tolerant, opened, position =>
    match lookup position with
    | .error cause => if tolerant then .ok (leaf position) else .error ⟨position, cause⟩
    | .ok [] => .ok (leaf position)
    | .ok parents =>
      match depth with
      | 0 => .ok (leaf position)
      | depth + 1 => do
        let opened := .ofPosition position :: opened
        let blaming ← parents.mapM fun parent =>
          let parent := parent.inheritAuxiliary position
          if isOpen opened parent then .ok (leaf parent)
          else resolve lookup lenient depth lenient opened parent
        .ok (mk position blaming)

/-- The blame tree of a position, whose own lookup may not fail. -/
def trace (lookup : Lookup) (config : BlameConfig) (start : Position) :
    Except BlameError BlameTree :=
  resolve lookup config.lenient config.maxDepth.toNat false [] start

/-- The childless nodes met from a stack of trees within a number of steps, each place once. -/
def collectLeaves : Nat → List BlameTree → List Position → List Position
  | 0, _, found => found
  | _ + 1, [], found => found
  | steps + 1, tree :: stack, found =>
    if tree.isLeaf then
      collectLeaves steps stack
        (if found.any (tree.node.samePlace ·) then found else found ++ [tree.node])
    else collectLeaves steps (tree.blaming ++ stack) found

mutual

/-- The number of nodes. -/
def size : BlameTree → Nat
  | mk _ blaming => sizes blaming + 1

def sizes : List BlameTree → Nat
  | [] => 0
  | t :: ts => t.size + sizes ts

end

/-- Every childless node from left to right, each place once. -/
def leaves (t : BlameTree) : List Position := collectLeaves (t.size + 1) [t] []

mutual

/-- The nodes in pre-order with their depths. -/
def preorder (depth : Nat) : BlameTree → List (Nat × Position)
  | mk node blaming => (depth, node) :: preorders (depth + 1) blaming

def preorders (depth : Nat) : List BlameTree → List (Nat × Position)
  | [] => []
  | t :: ts => t.preorder depth ++ preorders depth ts

end

end BlameTree

/-- The leaves with their places in the text, where the store can tell. -/
def DocumentStore.locateLeaves {σ : Type} (store : DocumentStore σ) (s : σ) (t : BlameTree) :
    List (Position × Option TextLocation) :=
  t.leaves.map fun p => (p, store.locate s p)

end Lineage
