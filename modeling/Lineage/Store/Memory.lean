import Lineage.OrderedMap
import Lineage.Store.Basic

/-! A store that keeps every document in memory. A document is generated when a mapping table has
been retained for it, and authored otherwise. -/

namespace Lineage

structure Document where
  tree : Option Tree := none
  mappings : Option (List Mapping) := none
deriving DecidableEq, Inhabited

structure MemoryStore where
  documents : OrderedMap SourceId Document := .empty
deriving DecidableEq, Inhabited

namespace MemoryStore

def document? (s : MemoryStore) (id : SourceId) : Option Document := s.documents.get? id

/-- Changes a document, which exists from then on. -/
def update (s : MemoryStore) (id : SourceId) (f : Document → Document) : MemoryStore :=
  ⟨s.documents.insert id (f ((s.document? id).getD {}))⟩

/-- Puts a tree under a name and keeps the mapping table the name may have. -/
def putTree (s : MemoryStore) (id : SourceId) (t : Tree) : MemoryStore :=
  s.update id ({ · with tree := some t })

def contains (s : MemoryStore) (id : SourceId) : Bool := s.documents.contains id

def mappings (s : MemoryStore) (id : SourceId) : Option (List Mapping) :=
  (s.document? id).bind (·.mappings)

def isGenerated (s : MemoryStore) (id : SourceId) : Bool := (s.mappings id).isSome

def getTree (s : MemoryStore) (id : SourceId) : Except StoreError Tree :=
  match (s.document? id).bind (·.tree) with
  | some t => .ok t
  | none => .error (.documentNotFound id)

def behind (s : MemoryStore) (p : Position) : Except StoreError (List Position) :=
  match s.document? p.source with
  | some d => .ok (positionsBehind (d.mappings.getD []) p.pointer)
  | none => .error (.documentNotFound p.source)

def putMappings (s : MemoryStore) (id : SourceId) (ms : List Mapping) : MemoryStore :=
  s.update id ({ · with mappings := some ms })

/-- The documents sorted by name. -/
def sortedDocuments (s : MemoryStore) : List (SourceId × Document) :=
  s.documents.entries.mergeSort fun a b => a.1.compare b.1 != .gt

def store : DocumentStore MemoryStore where
  getTree := getTree
  putTree s id t := .ok (s.putTree id t)
  behind := behind
  putMappings s id ms := .ok (s.putMappings id ms)

end MemoryStore

end Lineage
