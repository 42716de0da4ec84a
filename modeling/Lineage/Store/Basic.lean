import Lineage.Provenance.Mapping
import Lineage.Tree.Basic

/-! Document stores: they hold the trees of documents, remember the mapping table that explains each
generated document, and answer which positions lie behind a position. -/

namespace Lineage

inductive StoreError where
  | documentNotFound (id : SourceId)
  | pointer (error : PointerError)
  | internal (text : String)
deriving DecidableEq, Inhabited

def StoreError.message : StoreError → String
  | .documentNotFound id => "Document not found: " ++ id.name
  | .pointer error => "Pointer error: " ++ error.message
  | .internal text => "Store error: " ++ text

/-- A line and a column of a text, both counted from one. -/
structure TextLocation where
  line : UInt32
  column : UInt32
deriving DecidableEq, Inhabited

/-- A store whose contents are part of a state `σ`. Reading leaves the state alone, and a refused
write leaves no new state. -/
structure DocumentStore (σ : Type) where
  getTree : σ → SourceId → Except StoreError Tree
  putTree : σ → SourceId → Tree → Except StoreError σ
  /-- The positions directly behind one; none for a document without a mapping table. -/
  behind : σ → Position → Except StoreError (List Position)
  putMappings : σ → SourceId → List Mapping → Except StoreError σ
  /-- Where a position stands in the text of its document, if the store can tell. -/
  locate : σ → Position → Option TextLocation := fun _ _ => none

end Lineage
