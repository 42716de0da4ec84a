import Lineage.Provenance.Mapping
import Lineage.Tree.Conversion

/-! What a caller may hand to a guarded container, and why a write is refused. -/

namespace Lineage

/-- A value with the provenance that is recorded with it. -/
structure TaggedWrite where
  value : Tree
  /-- Where the value came from in its source. -/
  origin : Option Pointer
  /-- The source, if it is not the default one. -/
  source : Option SourceId := none
  auxiliary : Option String := none
  /-- Whether the leaves of a composite value get mappings of their own. -/
  recurse : Bool := false
deriving DecidableEq, Inhabited

/-- Only tagged values are accepted. A bare one is there to be refused. -/
inductive Assignment where
  | tagged (write : TaggedWrite)
  | bare (value : Tree)
deriving DecidableEq, Inhabited

inductive WriteError where
  | directAssignment (pointer : Pointer)
  | missingPointer (pointer : Pointer)
  | duplicateWrite (pointer : Pointer)
  | indexOutOfBounds (array : Pointer) (index length : Nat)
  | invalidKey (array : Pointer) (key : String)
  | notAContainer
  | sealed (pointer : Pointer)
deriving DecidableEq, Inhabited

def WriteError.message : WriteError → String
  | .directAssignment p =>
    "direct assignment to " ++ p.render ++ " is prohibited; use a tagged write"
  | .missingPointer p => "tagged write to " ++ p.render ++ " carries no origin pointer"
  | .duplicateWrite p => p.render ++ " has already been written"
  | .indexOutOfBounds array index length =>
    "index " ++ Nat.repr index ++ " is past the end of the array at " ++ array.render
      ++ " (length " ++ Nat.repr length ++ ")"
  | .invalidKey array key =>
    "key " ++ Text.quoted key ++ " cannot address an array item at " ++ array.render
  | .notAContainer => "graph proxy backing must be an object or array"
  | .sealed p => "write to " ++ p.render ++ " after the mapping table was sealed"

namespace Assignment

/-- Reads a loosely shaped record. Without a member `value` it is a bare value itself; an origin or
a source that is no string is as good as missing. The value is built in the heap. -/
def ofJson (h : Heap) (record : Json) : Except PointerError (Assignment × Heap) :=
  let bare := let (t, h) := h.addJson record; .ok (.bare t, h)
  match record with
  | .object fields =>
    match OrderedMap.find "value" fields with
    | none => bare
    | some value => do
      let text (name : String) := (OrderedMap.find name fields).bind Json.string?
      let origin ← (text "pointer").mapM Pointer.parse
      let (t, h) := h.addJson value
      .ok (.tagged
        { value := t
          origin
          source := (text "sourceId").map SourceId.mk
          auxiliary := text "auxiliary"
          recurse := ((OrderedMap.find "recurse" fields).bind Json.bool?).getD false }, h)
  | _ => bare

end Assignment

end Lineage
