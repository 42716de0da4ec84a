import Lineage.Pointer.Segment

/-! Pointers: paths from the root of a tree to one of its nodes. -/

namespace Lineage

structure Pointer where
  segments : List Segment := []
deriving DecidableEq, Inhabited

namespace Pointer

/-- The pointer to the whole document. -/
def root : Pointer := ⟨[]⟩

def tokens (p : Pointer) : List String := p.segments.map Segment.token

/-- Pointers are the same when their segments are. -/
instance : BEq Pointer := ⟨fun p q => p.segments == q.segments⟩

def isRoot (p : Pointer) : Bool := p.segments.isEmpty

def length (p : Pointer) : Nat := p.segments.length

/-- The pointer to a child. -/
def append (p : Pointer) (s : Segment) : Pointer := ⟨p.segments ++ [s]⟩

def join (p q : Pointer) : Pointer := ⟨p.segments ++ q.segments⟩

def parent? (p : Pointer) : Option Pointer :=
  if p.segments.isEmpty then none else some ⟨p.segments.dropLast⟩

def last? (p : Pointer) : Option Segment := p.segments.getLast?

/-- What remains of a list of segments after the segments of another one. -/
def remainder? : List Segment → List Segment → Option (List Segment)
  | [], rest => some rest
  | _ :: _, [] => none
  | s :: ss, t :: ts => if s == t then remainder? ss ts else none

/-- The way from an ancestor, or from the node itself, down to the node. -/
def below? (p ancestor : Pointer) : Option Pointer :=
  (remainder? ancestor.segments p.segments).map Pointer.mk

def startsWith (p ancestor : Pointer) : Bool := ancestor.segments.isPrefixOf p.segments

theorem segments_beq_iff {ss ts : List Segment} :
    (ss == ts) = true ↔ ss.map Segment.token = ts.map Segment.token := by
  induction ss generalizing ts with
  | nil => cases ts <;> simp
  | cons s ss ih => cases ts <;> simp [Segment.beq_iff, ih]

theorem beq_iff {p q : Pointer} : (p == q) = true ↔ p.tokens = q.tokens := segments_beq_iff

theorem isPrefixOf_iff {ss ts : List Segment} :
    ss.isPrefixOf ts = true ↔ ss.map Segment.token <+: ts.map Segment.token := by
  induction ss generalizing ts with
  | nil => simp
  | cons s ss ih => cases ts <;> simp [List.isPrefixOf, Segment.beq_iff, ih, List.cons_prefix_cons]

theorem startsWith_iff {p q : Pointer} : p.startsWith q = true ↔ q.tokens <+: p.tokens :=
  isPrefixOf_iff

@[simp] theorem tokens_root : root.tokens = [] := rfl

@[simp] theorem tokens_append (p : Pointer) (s : Segment) :
    (p.append s).tokens = p.tokens ++ [s.token] := by simp [tokens, append]

@[simp] theorem tokens_join (p q : Pointer) : (p.join q).tokens = p.tokens ++ q.tokens := by
  simp [tokens, join]

end Pointer

end Lineage
