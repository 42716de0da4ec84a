import Lineage.Number.Basic

/-! YAML values. Integers are those that fit a 64-bit word, signed or unsigned. Mappings may have
any value as a key; keys that are equal as YAML values are one key. -/

namespace Lineage

inductive Yaml where
  | null
  | bool (value : Bool)
  | integer (value : Int) (fits : fitsWord value = true)
  | float (value : Binary64)
  | string (text : String)
  | sequence (items : List Yaml)
  | mapping (entries : List (Yaml × Yaml))
  | tagged (tag : String) (value : Yaml)
deriving Inhabited

namespace Yaml

/-- A tag is the same with and without the exclamation mark in front, unless it is nothing else. -/
def tagName (tag : String) : List Char :=
  match tag.toList with
  | ['!'] => ['!']
  | '!' :: rest => rest
  | cs => cs

/-- The two zeros are equal, and so are all values that are not a number. -/
def sameFloat (x y : Binary64) : Bool :=
  x == y || (x.isNaN && y.isNaN) || (x.isZero && y.isZero)

mutual

/-- Equality of YAML values. An integer never equals a float, and the order of a mapping's entries
does not matter. -/
def same : Yaml → Yaml → Bool
  | .null, .null => true
  | .bool a, .bool b => a == b
  | .integer a _, .integer b _ => a == b
  | .float a, .float b => sameFloat a b
  | .string a, .string b => a == b
  | .sequence a, .sequence b => sameItems a b
  | .mapping a, .mapping b => a.length == b.length && entriesAmong a b
  | .tagged s a, .tagged t b => tagName s == tagName t && same a b
  | _, _ => false

def sameItems : List Yaml → List Yaml → Bool
  | [], [] => true
  | a :: as, b :: bs => same a b && sameItems as bs
  | _, _ => false

/-- Every entry of the first list has an equal one in the second. -/
def entriesAmong : List (Yaml × Yaml) → List (Yaml × Yaml) → Bool
  | [], _ => true
  | (k, v) :: rest, es => es.any (fun e => same k e.1 && same v e.2) && entriesAmong rest es

end

/-- Replaces the value of an equal key, otherwise adds the entry last. -/
def putEntry (k v : Yaml) : List (Yaml × Yaml) → List (Yaml × Yaml)
  | [] => [(k, v)]
  | (k', v') :: rest => if same k' k then (k', v) :: rest else (k', v') :: putEntry k v rest

/-- The mapping that arises when the entries are added from left to right. -/
def ofEntries (entries : List (Yaml × Yaml)) : Yaml :=
  .mapping (entries.foldl (fun es e => putEntry e.1 e.2 es) [])

end Yaml

end Lineage
