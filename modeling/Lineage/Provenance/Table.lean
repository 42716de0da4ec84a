import Lineage.Provenance.Mapping

/-! The append-only list of mappings that a run fills and then seals. -/

namespace Lineage

structure MappingTable where
  entries : List Mapping := []
  isSealed : Bool := false
deriving DecidableEq, Inhabited

namespace MappingTable

/-- Adds a mapping last. Sealing is for writers to respect; recording itself does not ask. -/
def record (t : MappingTable) (m : Mapping) : MappingTable := { t with entries := t.entries ++ [m] }

def sealed (t : MappingTable) : MappingTable := { t with isSealed := true }

def isOpen (t : MappingTable) : Bool := !t.isSealed

end MappingTable

end Lineage
