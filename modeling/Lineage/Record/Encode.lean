import Lineage.Blame.Basic
import Lineage.Json.Printer

/-! Provenance records as JSON values, for keeping them. Fields stand in a fixed order, and a
locator that is absent is left out. -/

namespace Lineage

def Pointer.toJson (p : Pointer) : Json := .string p.render

def SourceId.toJson (s : SourceId) : Json := .string s.name

/-- The field of a locator, if there is one. -/
def auxiliaryField (auxiliary : Option String) : List (String × Json) :=
  (auxiliary.map fun text => ("auxiliary", Json.string text)).toList

def Position.toJson (p : Position) : Json :=
  .object ([("source_id", p.source.toJson), ("pointer", p.pointer.toJson)]
    ++ auxiliaryField p.auxiliary)

def Mapping.toJson (m : Mapping) : Json :=
  .object ([("generated_pointer", m.generated.toJson), ("original_pointer", m.origin.toJson),
    ("source_id", m.source.toJson)] ++ auxiliaryField m.auxiliary
    ++ [("recurse", .bool m.recurse)])

def BlameConfig.toJson (c : BlameConfig) : Json :=
  .object [("max_depth", .word c.maxDepth), ("lenient", .bool c.lenient)]

def TextLocation.toJson (l : TextLocation) : Json :=
  .object [("line", .word l.line.toUInt64), ("column", .word l.column.toUInt64)]

mutual

def BlameTree.toJson : BlameTree → Json
  | .mk node blaming => .object [("node", node.toJson), ("blaming", .array (blamingToJson blaming))]

def blamingToJson : List BlameTree → List Json
  | [] => []
  | t :: ts => t.toJson :: blamingToJson ts

end

end Lineage
