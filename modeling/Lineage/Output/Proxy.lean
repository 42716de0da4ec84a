import Lineage.Output.Workspace
import Lineage.Output.Write

/-! Write-guarded views of output containers. A write has to name its origin, reaches each place
once, and delivers its mapping to the sink of the proxy. -/

namespace Lineage

structure Proxy where
  backing : ContainerId
  /-- Where the container stands in the output. -/
  location : Pointer
  /-- The source of writes that name none. -/
  source : SourceId
  sink : Sink
deriving DecidableEq, Inhabited

/-- A write leaves behind what it has done, also when it is refused. -/
abbrev WriteM := EStateM WriteError Workspace

namespace Proxy

def tree (p : Proxy) : Tree := .container p.backing

/-- A proxy over a container that is already there. -/
def wrap (source : SourceId) (location : Pointer) (sink : Sink) (backing : Tree) :
    Except WriteError Proxy :=
  match backing with
  | .container id => .ok ⟨id, location, source, sink⟩
  | _ => .error .notAContainer

/-- A proxy over a new container. -/
def fresh (source : SourceId) (location : Pointer) (sink : Sink) (c : Container) (w : Workspace) :
    Proxy × Workspace :=
  let (id, w) := w.alloc c
  (⟨id, location, source, sink⟩, w)

/-- A proxy over a container that stands at a key of this one. -/
def child (p : Proxy) (key : Segment) (backing : ContainerId) : Proxy :=
  { p with backing, location := p.location.append key }

def summary (w : Workspace) (p : Proxy) : String :=
  "GraphProxy \x7b prefix: " ++ Text.quoted p.location.render
    ++ ", source_id: SourceId(" ++ Text.quoted p.source.name
    ++ "), backing: " ++ w.heap.summary p.tree ++ " \x7d"

/-- Adds a member under a new name, or the item that follows the last one. -/
def insertAt (p : Proxy) (key : Segment) (generated : Pointer) (value : Tree) : WriteM Unit := do
  let w ← get
  match w.heap.get? p.backing with
  | some (.object members) =>
    if members.contains key.token then throw (.duplicateWrite generated)
    set { w with heap := w.heap.set p.backing (.object (members.insert key.token value)) }
  | some (.array items) =>
    match key.asIndex with
    | none => throw (.invalidKey p.location key.token)
    | some index =>
      if index < items.length then throw (.duplicateWrite generated)
      if index > items.length then throw (.indexOutOfBounds p.location index items.length)
      set { w with heap := w.heap.set p.backing (.array (items ++ [value])) }
  | none => throw .notAContainer

def deliver (s : Sink) (m : Mapping) : WriteM Unit :=
  modify fun w => w.modifyTable s.table (·.record m)

/-- The mapping of a leaf below a composite value that was written with its leaves. -/
def leafMapping (top : Mapping) (leaf : Node) : Mapping :=
  { top with
    generated := top.generated.join leaf.pointer
    origin := top.origin.join leaf.pointer
    recurse := false }

/-- Writes one member with its provenance. -/
def put (p : Proxy) (key : Segment) (a : Assignment) : WriteM Unit := do
  let generated := p.location.append key
  match a with
  | .bare _ => throw (.directAssignment generated)
  | .tagged write =>
    match write.origin with
    | none => throw (.missingPointer generated)
    | some origin =>
      if !(← get).accepts p.sink then throw (.sealed generated)
      p.insertAt key generated write.value
      let top : Mapping :=
        { generated, origin, source := write.source.getD p.source,
          auxiliary := write.auxiliary, recurse := write.recurse }
      deliver p.sink top
      if write.recurse && write.value.isComposite then
        ((← get).heap.leaves write.value).forM fun leaf => deliver p.sink (leafMapping top leaf)

/-- Writes the item that follows the last one. -/
def push (p : Proxy) (a : Assignment) : WriteM Unit := do
  p.put (.index ((← get).heap.length p.tree)) a

end Proxy

end Lineage
