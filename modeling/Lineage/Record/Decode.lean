import Lineage.Blame.Basic
import Lineage.Json.Basic

/-! Reading provenance records from JSON values. A record is an object, in which unknown members are
ignored, or the array of its fields in their order. Fields are read in the order in which they are
given, and the first that cannot be read decides the failure. -/

namespace Lineage

inductive DecodeError where
  /-- A string that had to be a pointer is none. -/
  | pointer (error : PointerError)
  /-- A value of the wrong kind, a missing field, or a field too many. -/
  | shape
deriving DecidableEq, Inhabited

namespace Decode

abbrev Decoder (α : Type) := Json → Except DecodeError α

def text : Decoder String
  | .string s => .ok s
  | _ => .error .shape

def flag : Decoder Bool
  | .bool b => .ok b
  | _ => .error .shape

/-- A whole number of 64 bits; no float is one. -/
def word : Decoder UInt64
  | .number n =>
    match n.word? with
    | some w => .ok w
    | none => .error .shape
  | _ => .error .shape

/-- A whole number of 32 bits. -/
def halfWord : Decoder UInt32 := fun json => do
  let w ← word json
  if w < 0x100000000 then .ok w.toUInt32 else .error .shape

/-- A text, or null for none. -/
def optionalText : Decoder (Option String)
  | .null => .ok none
  | .string s => .ok (some s)
  | _ => .error .shape

def pointer : Decoder Pointer := fun json => do
  match Pointer.parse (← text json) with
  | .ok p => .ok p
  | .error e => .error (.pointer e)

def source : Decoder SourceId := fun json => return ⟨← text json⟩

/-- Reads the given fields one by one into a draft. -/
def record {ρ : Type} (names : List String) (read : ρ → String → Decoder ρ) (draft : ρ) : Decoder ρ
  | .object members => members.foldlM (fun d field => read d field.1 field.2) draft
  | .array items => do
    let draft ← (names.zip items).foldlM (fun d field => read d field.1 field.2) draft
    if items.length > names.length then .error .shape else .ok draft
  | _ => .error .shape

/-- A field without a default has to be given. -/
def required {α : Type} (field : Option α) : Except DecodeError α :=
  match field with
  | some value => .ok value
  | none => .error .shape

/-- The fields of a position read so far. -/
structure PositionDraft where
  source : Option SourceId := none
  pointer : Option Pointer := none
  auxiliary : Option String := none

def readPositionField (d : PositionDraft) (name : String) : Decoder PositionDraft := fun json =>
  match name with
  | "source_id" => return { d with source := ← source json }
  | "pointer" => return { d with pointer := ← pointer json }
  | "auxiliary" => return { d with auxiliary := ← optionalText json }
  | _ => .ok d

def position : Decoder Position := fun json => do
  let d ← record ["source_id", "pointer", "auxiliary"] readPositionField {} json
  return ⟨← required d.source, ← required d.pointer, d.auxiliary⟩

/-- The fields of a mapping read so far. -/
structure MappingDraft where
  generated : Option Pointer := none
  origin : Option Pointer := none
  source : Option SourceId := none
  auxiliary : Option String := none
  recurse : Bool := false

def readMappingField (d : MappingDraft) (name : String) : Decoder MappingDraft := fun json =>
  match name with
  | "generated_pointer" => return { d with generated := ← pointer json }
  | "original_pointer" => return { d with origin := ← pointer json }
  | "source_id" => return { d with source := ← source json }
  | "auxiliary" => return { d with auxiliary := ← optionalText json }
  | "recurse" => return { d with recurse := ← flag json }
  | _ => .ok d

def mapping : Decoder Mapping := fun json => do
  let d ← record ["generated_pointer", "original_pointer", "source_id", "auxiliary", "recurse"]
    readMappingField {} json
  return ⟨← required d.generated, ← required d.origin, ← required d.source, d.auxiliary, d.recurse⟩

def readConfigField (c : BlameConfig) (name : String) : Decoder BlameConfig := fun json =>
  match name with
  | "max_depth" => return { c with maxDepth := ← word json }
  | "lenient" => return { c with lenient := ← flag json }
  | _ => .ok c

def config : Decoder BlameConfig := record ["max_depth", "lenient"] readConfigField {}

/-- The fields of a text location read so far. -/
structure LocationDraft where
  line : Option UInt32 := none
  column : Option UInt32 := none

def readLocationField (d : LocationDraft) (name : String) : Decoder LocationDraft := fun json =>
  match name with
  | "line" => return { d with line := some (← halfWord json) }
  | "column" => return { d with column := some (← halfWord json) }
  | _ => .ok d

def location : Decoder TextLocation := fun json => do
  let d ← record ["line", "column"] readLocationField {} json
  return ⟨← required d.line, ← required d.column⟩

/-- The fields of a blame tree read so far. -/
structure BlameDraft where
  node : Option Position := none
  blaming : Option (List BlameTree) := none

/-- Reads the trees below a node with the given decoder. -/
def readBlameField (inner : Decoder BlameTree) (d : BlameDraft) (name : String) :
    Decoder BlameDraft := fun json =>
  match name with
  | "node" => return { d with node := ← position json }
  | "blaming" =>
    match json with
    | .array items => return { d with blaming := some (← items.mapM inner) }
    | _ => .error .shape
  | _ => .ok d

/-- A blame tree of at most `depth` levels. -/
def blameWithin : Nat → Decoder BlameTree
  | 0, _ => .error .shape
  | depth + 1, json => do
    let d ← record ["node", "blaming"] (readBlameField (blameWithin depth)) {} json
    return .mk (← required d.node) (← required d.blaming)

mutual

/-- How deep composites nest in a value. -/
def depth : Json → Nat
  | .array items => depthOfItems items + 1
  | .object members => depthOfMembers members + 1
  | _ => 1

def depthOfItems : List Json → Nat
  | [] => 0
  | item :: rest => max (depth item) (depthOfItems rest)

def depthOfMembers : List (String × Json) → Nat
  | [] => 0
  | (_, value) :: rest => max (depth value) (depthOfMembers rest)

end

/-- No blame tree has more levels than the value it is read from. -/
def blame : Decoder BlameTree := fun json => blameWithin (depth json) json

end Decode

end Lineage
