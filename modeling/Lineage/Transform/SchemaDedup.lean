import Lineage.Json.Printer
import Lineage.Run.Transform

/-! Folding of equal schemas. Schemas of responses move to a shared place, `/components/schemas`,
where those that serialise to the same text become one component, and each response keeps a
reference. The component comes from the first of its schemas; the others are kept as its locator. -/

namespace Lineage

/-- Schemas that serialise to one text. -/
structure SchemaGroup where
  canonical : String
  source : SourceId
  value : Tree
  /-- Where the schema with the value was found. -/
  first : Pointer
  /-- Where equal schemas were found later. -/
  folded : List Pointer := []
deriving Inhabited

structure SchemaDedup where
  /-- Names for the groups in the order of their first schemas. -/
  names : List String
  groups : List SchemaGroup := []
deriving Inhabited

namespace SchemaDedup

/-- Groups beyond the given names are numbered from one. -/
def name (d : SchemaDedup) (position : Nat) : String :=
  d.names[position]?.getD ("Schema" ++ Nat.repr (position + 1))

/-- The place of a schema among the groups, with the groups after adding it. -/
def classify (new : SchemaGroup) : List SchemaGroup → Nat × List SchemaGroup
  | [] => (0, [new])
  | g :: rest =>
    if g.canonical = new.canonical then (0, { g with folded := g.folded ++ [new.first] } :: rest)
    else
      let (position, rest) := classify new rest
      (position + 1, g :: rest)

variable {σ : Type}

abbrev DedupHook (σ : Type) := Hook σ SchemaDedup

/-- Groups a schema and tells the name of its component. -/
def assign (source : SourceId) (n : Node) : DedupHook σ String := do
  match (← Hook.heap).toJson? n.value with
  | none => throw (.transform Heap.cycleMessage)
  | some json =>
    let d := (← get).transform
    let new : SchemaGroup :=
      { canonical := json.render, source, value := n.value, first := n.pointer }
    let (position, groups) := classify new d.groups
    modify ({ · with transform := { d with groups } })
    return d.name position

def reference (name : String) : Tree := .string ("#/components/schemas/" ++ name)

/-- A member of a response: a schema leaves a reference behind, anything else is cloned. -/
def member (source : SourceId) (out : Proxy) (n : Node) : DedupHook σ Unit := do
  if n.key.token == "schema" then
    let name ← assign source n
    let place ← Run.allocateObject out (.ofToken "schema") n.pointer
    Run.place place (.ofToken "$ref") n.pointer (reference name) false
  else Run.placeCopy out n.key n.pointer n.value true

def responses (target : Proxy) (visit : TraversalId) (n : Node) : DedupHook σ Unit := do
  match (← get).run.current with
  | none => throw (.transform "no current input")
  | some source =>
    let responses ← Run.openObject target (.ofToken "responses") n.pointer
    Hook.forMembers visit n fun response => do
      let out ← Run.allocateObject responses response.key response.pointer
      Hook.forMembers visit response (member source out)

/-- Where the later schemas of a group were found, in one text. -/
def locator? (g : SchemaGroup) : Option String :=
  if g.folded.isEmpty then none else some (",".intercalate (g.folded.map Pointer.render))

/-- Writes the component of a group. -/
def component (schemas : Proxy) (name : String) (g : SchemaGroup) : DedupHook σ Unit := do
  let value ← Hook.onWorkspace fun w =>
    let (value, heap) := w.heap.duplicate g.value
    (value, { w with heap })
  Run.write schemas (.ofToken name)
    { value, origin := some g.first, source := some g.source, auxiliary := locator? g,
      recurse := true }

/-- Writes the components of all groups from the given position on. -/
def components (schemas : Proxy) (d : SchemaDedup) : Nat → List SchemaGroup → DedupHook σ Unit
  | _, [] => pure ()
  | position, g :: rest => do
    component schemas (d.name position) g
    components schemas d (position + 1) rest

def transform : Transform σ SchemaDedup where
  process target visit nodes :=
    Hook.forNodes visit nodes fun n =>
      if n.key.token == "responses" then responses target visit n
      else Run.placeCopy target n.key n.pointer n.value true
  conclude := do
    let root := (← get).run.root
    let place ← Run.allocateObject root (.ofToken "components") .root
    let schemas ← Run.allocateObject place (.ofToken "schemas") .root
    let d := (← get).transform
    components schemas d 0 d.groups

end SchemaDedup

end Lineage
