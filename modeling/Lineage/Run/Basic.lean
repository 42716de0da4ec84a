import Lineage.Output.Proxy
import Lineage.Run.Id
import Lineage.Store.Basic
import Lineage.Tree.Copy

/-! Runs. A run knows its inputs, the input being processed, its output root, its mapping table, and
at which output pointer it allocated each container. Everything a transform adds to the output goes
through the operations below, which refuse proxies that the run did not allocate. -/

namespace Lineage

inductive RunError where
  | write (error : WriteError)
  | pointer (error : PointerError)
  | unknownProxy (location : Pointer)
  | store (error : StoreError)
  | transform (text : String)
  | failedEarlier (text : String)
deriving DecidableEq, Inhabited

def RunError.message : RunError → String
  | .write error => error.message
  | .pointer error => error.message
  | .unknownProxy location =>
    "graph proxy at " ++ location.render ++ " was not allocated by this run"
  | .store error => "document store error: " ++ error.message
  | .transform text => "transform error: " ++ text
  | .failedEarlier text => "processor run failed earlier: " ++ text

structure Run where
  id : RunId
  /-- All inputs in the order in which they are processed. -/
  inputs : OrderedMap SourceId Tree
  /-- The input being processed; none before the first and after the last. -/
  current : Option SourceId := none
  root : Proxy
  table : TableId
  /-- The output pointer of every container that the run allocated. -/
  registry : OrderedMap ContainerId Pointer
deriving Inhabited

structure RunState where
  workspace : Workspace
  run : Run
deriving Inhabited

abbrev RunM := EStateM RunError RunState

namespace Run

/-- The source of a run's own writes: its first input, or the run itself when it has none. -/
def defaultSource (id : RunId) (inputs : OrderedMap SourceId Tree) : SourceId :=
  match inputs.keys with
  | first :: _ => first
  | [] => ⟨"run:" ++ id.render⟩

/-- A run with an empty object as its output. Of inputs with one name the last tree counts. -/
def start (id : RunId) (inputs : List (SourceId × Tree)) (w : Workspace) : RunState :=
  let inputs := OrderedMap.ofList inputs
  let (table, w) := w.newTable
  let (root, w) := Proxy.fresh (defaultSource id inputs) .root ⟨table, false⟩ .emptyObject w
  ⟨w, { id, inputs, root, table, registry := OrderedMap.empty.insert root.backing .root }⟩

/-- The number of mappings recorded so far. -/
def mappingCount (s : RunState) : Nat := (s.workspace.tableEntries s.run.table).length

def liftWrite {α : Type} (m : WriteM α) : RunM α := fun s =>
  match m s.workspace with
  | .ok a workspace => .ok a { s with workspace }
  | .error e workspace => .error (.write e) { s with workspace }

/-- The output pointer of the container behind a proxy. -/
def outputPointer (p : Proxy) : RunM Pointer := do
  match (← get).run.registry.get? p.backing with
  | some pointer => return pointer
  | none => throw (.unknownProxy p.location)

/-- Writes a tagged value; the current input is the source of a write that names none. -/
def write (target : Proxy) (key : Segment) (w : TaggedWrite) : RunM Unit := do
  discard (outputPointer target)
  let current := (← get).run.current
  liftWrite (target.put key (.tagged { w with source := w.source.or current }))

/-- Writes a literal value, which may share containers with other trees. -/
def place (target : Proxy) (key : Segment) (origin : Pointer) (value : Tree) (recurse : Bool) :
    RunM Unit :=
  write target key { value, origin := some origin, recurse }

/-- Writes a deep copy of a value. -/
def placeCopy (target : Proxy) (key : Segment) (origin : Pointer) (value : Tree)
    (recurse : Bool) : RunM Unit := do
  let s ← get
  let (value, heap) := s.workspace.heap.duplicate value
  set { s with workspace := { s.workspace with heap } }
  place target key origin value recurse

/-- Allocates a container under a key of a parent. -/
def allocate (c : Container) (parent : Proxy) (key : Segment) (origin : Pointer) : RunM Proxy := do
  let pointer := (← outputPointer parent).append key
  let s ← get
  let (id, workspace) := s.workspace.alloc c
  set { s with workspace }
  write parent key { value := .container id, origin := some origin }
  modify fun s => { s with run := { s.run with registry := s.run.registry.insert id pointer } }
  return parent.child key id

def allocateObject (parent : Proxy) (key : Segment) (origin : Pointer) : RunM Proxy :=
  allocate .emptyObject parent key origin

def allocateArray (parent : Proxy) (key : Segment) (origin : Pointer) : RunM Proxy :=
  allocate .emptyArray parent key origin

/-- The container of the same kind that the run allocated at this very output pointer, if that is
what stands there. -/
def reopenable? (s : RunState) (isArray : Bool) (pointer : Pointer) (existing : Tree) :
    Option ContainerId := do
  let id ← existing.id?
  let c ← s.workspace.heap.get? id
  let registered ← s.run.registry.get? id
  if c.isArray == isArray && registered == pointer then some id else none

/-- Reopens what the run allocated under a key, or allocates a container there. A value that was
written there, and a container that belongs somewhere else, stay closed. -/
def reopenOrAllocate (c : Container) (parent : Proxy) (key : Segment) (origin : Pointer) :
    RunM Proxy := do
  match (← get).workspace.heap.member? parent.tree key with
  | none => allocate c parent key origin
  | some existing =>
    let pointer := (← outputPointer parent).append key
    match reopenable? (← get) c.isArray pointer existing with
    | some id => return parent.child key id
    | none => throw (.write (.duplicateWrite pointer))

def openObject (parent : Proxy) (key : Segment) (origin : Pointer) : RunM Proxy :=
  reopenOrAllocate .emptyObject parent key origin

def openArray (parent : Proxy) (key : Segment) (origin : Pointer) : RunM Proxy :=
  reopenOrAllocate .emptyArray parent key origin

end Run

end Lineage
