import Lineage.Distinct
import Lineage.Pointer.Text

/-! Provenance records. A mapping says that the value at a pointer of a generated document came from
a pointer in another document; the positions behind a pointer are those that its deepest mapped
ancestor came from, extended by the way down from that ancestor. -/

namespace Lineage

/-- The unique name of a document. -/
structure SourceId where
  name : String
deriving DecidableEq, Inhabited

/-- Names are ordered as their UTF-8 bytes are. -/
def SourceId.compare (a b : SourceId) : Ordering :=
  if a.name < b.name then .lt else if a.name = b.name then .eq else .gt

/-- A place in a document, with a more specific locator where a merge left one. -/
structure Position where
  source : SourceId
  pointer : Pointer
  auxiliary : Option String := none
deriving DecidableEq, Inhabited

namespace Position

/-- Pointers count by their tokens. -/
instance : BEq Position :=
  ⟨fun a b => a.source == b.source && a.pointer == b.pointer && a.auxiliary == b.auxiliary⟩

/-- Whether two positions are one place, whatever their locators say. -/
def samePlace (a b : Position) : Bool := a.source == b.source && a.pointer == b.pointer

/-- A position without a locator takes that of the position it explains. -/
def inheritAuxiliary (up down : Position) : Position :=
  { up with auxiliary := up.auxiliary.or down.auxiliary }

def render (p : Position) : String := p.source.name ++ "#" ++ p.pointer.render

end Position

/-- One step of provenance. -/
structure Mapping where
  generated : Pointer
  origin : Pointer
  source : SourceId
  auxiliary : Option String := none
  recurse : Bool := false
deriving DecidableEq, Inhabited

namespace Mapping

/-- Where the value came from. -/
def position (m : Mapping) : Position := ⟨m.source, m.origin, m.auxiliary⟩

/-- The position that explains a place `rest` below the generated pointer. -/
def positionBelow (m : Mapping) (rest : Pointer) : Position :=
  { m.position with pointer := m.origin.join rest }

end Mapping

/-- The length of the longest generated pointer at or above `p`. -/
def deepestAncestor (mappings : List Mapping) (p : Pointer) : Option Nat :=
  ((mappings.filter fun m => p.startsWith m.generated).map (·.generated.length)).max?

/-- The positions behind `p` in recording order, each once. Mappings of `p` itself win; otherwise
the deepest mapped ancestors speak for it. -/
def positionsBehind (mappings : List Mapping) (p : Pointer) : List Position :=
  let exact := mappings.filter (·.generated == p)
  distinctBy (· == ·) <|
    if exact.isEmpty then
      match deepestAncestor mappings p with
      | none => []
      | some depth =>
        (mappings.filter (·.generated.length == depth)).filterMap fun m =>
          (p.below? m.generated).map m.positionBelow
    else exact.map Mapping.position

end Lineage
