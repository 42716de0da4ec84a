import Lineage.Number.Basic
import Lineage.OrderedMap

/-! JSON values with members in the order in which they were written. -/

namespace Lineage

inductive Json where
  | null
  | bool (value : Bool)
  | number (value : Number)
  | string (text : String)
  | array (items : List Json)
  | object (members : List (String × Json))
deriving Inhabited

namespace Json

def word (w : UInt64) : Json := .number (.ofWord w)

/-- An object in which the last value of a name stands at the first place of the name. -/
def ofMembers (members : List (String × Json)) : Json :=
  .object (OrderedMap.ofList members).entries

/-- The value of a member; other values have none. -/
def member? (name : String) : Json → Option Json
  | .object members => OrderedMap.find name members
  | _ => none

def string? : Json → Option String
  | .string text => some text
  | _ => none

def bool? : Json → Option Bool
  | .bool value => some value
  | _ => none

end Json

end Lineage
