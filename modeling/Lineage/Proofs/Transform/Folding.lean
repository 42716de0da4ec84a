import Lineage.Proofs.Pointer.Text
import Lineage.Proofs.Run.Walking
import Lineage.Proofs.Transform.Grouping

/-! Folding the schemas of a document. While a document is processed, everything in it is copied to the
place it came from, but for the schemas of its responses: each leaves a reference to the name of its group.
What has been copied, which schemas have been found, and what stands in their places is kept track of here,
member by member. -/

namespace Lineage

def Json.members : Json → List (String × Json)
  | .object members => members
  | _ => []

/-- A schema of a response of a document. -/
structure SchemaSite where
  source : SourceId
  response : String
  schema : Json

namespace SchemaSite

def pointer (x : SchemaSite) : Pointer := ⟨[.key "responses", .key x.response, .key "schema"]⟩

/-- Where the output has a reference in place of the schema. -/
def reference (x : SchemaSite) : List String := ["responses", x.response, "schema", "$ref"]

end SchemaSite

namespace SchemaDedup

/-- A document with an object at its root. -/
structure Input where
  source : SourceId
  members : List (String × Json)

namespace Input

def sitesOfMember (source : SourceId) (response : String) (m : String × Json) : List SchemaSite :=
  if m.1 = "schema" then [⟨source, response, m.2⟩] else []

def sitesOfResponse (source : SourceId) (r : String × Json) : List SchemaSite :=
  r.2.members.flatMap (sitesOfMember source r.1)

def sitesOfRoot (source : SourceId) (m : String × Json) : List SchemaSite :=
  if m.1 = "responses" then m.2.members.flatMap (sitesOfResponse source) else []

/-- The schemas of a document in the order in which they are found. -/
def sites (d : Input) : List SchemaSite := d.members.flatMap (sitesOfRoot d.source)

def keptOfMember (response : String) (m : String × Json) : List (List String × Json) :=
  if m.1 = "schema" then [] else [(["responses", response, m.1], m.2)]

def keptOfResponse (r : String × Json) : List (List String × Json) :=
  r.2.members.flatMap (keptOfMember r.1)

def keptOfRoot (m : String × Json) : List (List String × Json) :=
  if m.1 = "responses" then m.2.members.flatMap keptOfResponse else [([m.1], m.2)]

/-- The other members of the responses and of the document, with their places. -/
def kept (d : Input) : List (List String × Json) := d.members.flatMap keptOfRoot

/-- The responses of the document, if it has any, are objects of an object. -/
def HasResponses (d : Input) : Prop :=
  ∀ m ∈ d.members, m.1 = "responses" → ∃ rs, m.2 = .object rs ∧ ∀ r ∈ rs, ∃ ms, r.2 = .object ms

end Input

variable {σ : Type} {h : Heap} {names : List String} {kept : List (List String × Json)}
  {sites : List SchemaSite} {s s' : HookState σ SchemaDedup} {path : List String} {j : Json}
  {source : SourceId} {visit : TraversalId} {t : Tree}

/-- The reference to the component of a group. -/
def referenceText (names : List String) (position : Nat) : String :=
  "#/components/schemas/" ++ SchemaDedup.name { names } position

/-- A found schema is what its site tells. -/
structure Represents (s : RunState) (x : SchemaSite) (g : SchemaGroup) : Prop where
  canonical : g.canonical = x.schema.render
  source : g.source = x.source
  first : g.first = x.pointer
  folded : g.folded = []
  value : s.Settled g.value x.schema

/-- The run has delivered `kept`, has found the schemas at `sites`, and has put references in their places. -/
structure Folding (h : Heap) (names : List String) (kept : List (List String × Json))
    (sites : List SchemaSite) (s : HookState σ SchemaDedup) : Prop where
  live : s.runState.Live
  owns : s.runState.Owns s.run.root
  location : s.run.root.location.tokens = []
  beside : RunState.Beside h s.runState
  names_eq : s.transform.names = names
  delivered : ∀ x ∈ kept, s.runState.Delivered x.1 x.2
  groups : ∃ items, s.transform.groups = collect items ∧
    List.Forall₂ (Represents s.runState) sites items
  references : ∀ x ∈ sites, ∃ i, (texts s.transform.groups)[i]? = some x.schema.render ∧
    s.runState.Delivered x.reference (.string (referenceText names i))

theorem Represents.advances {x : SchemaSite} {g : SchemaGroup} {s s' : RunState} (hx : Represents s x g)
    (hs : s.Advances s') : Represents s' x g :=
  ⟨hx.canonical, hx.source, hx.first, hx.folded, hx.value.advances hs⟩

namespace Folding

/-- The run goes on without the transform. -/
theorem advances (hf : Folding h names kept sites s) (hs : s.runState.Advances s'.runState)
    (htransform : s'.transform = s.transform) : Folding h names kept sites s' := by
  have hroot : s'.run.root = s.run.root := hs.root_eq
  refine ⟨hs.live, ?_, ?_, hf.beside.advances hs, ?_, fun x hx => (hf.delivered x hx).advances hs, ?_, ?_⟩
  · rw [hroot]
    exact hs.owns _ hf.owns
  · rw [hroot]
    exact hf.location
  · rw [htransform]
    exact hf.names_eq
  · obtain ⟨items, hgroups, hall⟩ := hf.groups
    exact ⟨items, by rw [htransform, hgroups], hall.imp fun _ _ hx => hx.advances hs⟩
  · intro x hx
    obtain ⟨i, hi, hd⟩ := hf.references x hx
    exact ⟨i, by rwa [htransform], hd.advances hs⟩

/-- Something was copied. -/
theorem keep (hf : Folding h names kept sites s) (hd : s.runState.Delivered path j) :
    Folding h names (kept ++ [(path, j)]) sites s := by
  refine { hf with delivered := fun x hx => ?_ }
  rcases List.mem_append.mp hx with hx | hx
  · exact hf.delivered x hx
  · rw [List.mem_singleton.mp hx]
    exact hd

/-- A schema was classified, and a reference to its group has been put in its place. -/
theorem found (hf : Folding h names kept sites s) {x : SchemaSite} {g : SchemaGroup}
    (hs : s.runState.Advances s'.runState) (hx : Represents s.runState x g)
    (htransform : s'.transform = { s.transform with groups := (classify g s.transform.groups).2 })
    (hd : s'.runState.Delivered x.reference
      (.string (referenceText names (classify g s.transform.groups).1))) :
    Folding h names kept (sites ++ [x]) s' := by
  have hroot : s'.run.root = s.run.root := hs.root_eq
  have hgroups' : s'.transform.groups = (classify g s.transform.groups).2 := by rw [htransform]
  refine ⟨hs.live, ?_, ?_, hf.beside.advances hs, ?_, fun x hx => (hf.delivered x hx).advances hs, ?_, ?_⟩
  · rw [hroot]
    exact hs.owns _ hf.owns
  · rw [hroot]
    exact hf.location
  · rw [htransform]
    exact hf.names_eq
  · obtain ⟨items, hgroups, hall⟩ := hf.groups
    refine ⟨items ++ [g], ?_, ?_⟩
    · rw [hgroups', hgroups, collect_concat]
    · exact List.rel_append (hall.imp fun _ _ hx => hx.advances hs) (.cons (hx.advances hs) .nil)
  · intro y hy
    rw [hgroups']
    rcases List.mem_append.mp hy with hy | hy
    · obtain ⟨i, hi, hd'⟩ := hf.references y hy
      exact ⟨i, getElem?_classify_of_getElem? hi, hd'.advances hs⟩
    · rw [List.mem_singleton.mp hy]
      exact ⟨_, (getElem?_classify g _).trans (congrArg some hx.canonical), hd⟩

end Folding

/-- An input is being processed by a traversal. -/
structure Processing (h : Heap) (names : List String) (t : Tree) (source : SourceId) (visit : TraversalId)
    (kept : List (List String × Json)) (sites : List SchemaSite) (s : HookState σ SchemaDedup) : Prop extends
    Folding h names kept sites s where
  visits : s.Visits h t visit
  current : s.run.current = some source

namespace Processing

theorem acts (hp : Processing h names t source visit kept sites s) {r : RunState}
    (hs : s.runState.Acts r) : Processing h names t source visit kept sites (s.withRun r) := by
  refine ⟨hp.toFolding.advances hs.toAdvances rfl, ?_, hs.current_eq.trans hp.current⟩
  obtain ⟨e, he, hleads⟩ := hp.visits
  exact ⟨e, (congrArg (·[visit]?) hs.traversals_eq).trans he, hleads⟩

theorem entering (hp : Processing h names t source visit kept sites s) {e : Entrances}
    (he : e.LeadsIn h t) : Processing h names t source visit kept sites (s.entering visit e) ∧
      s.runState.Advances (s.entering visit e).runState := by
  have hadvances : s.runState.Advances (s.entering visit e).runState :=
    hp.live.advances_beside rfl rfl rfl rfl (.refl _) hp.live.sound.placed.indexable hp.live.whole.closed
  refine ⟨⟨hp.toFolding.advances hadvances rfl, ⟨e, ?_, he⟩, hp.current⟩, hadvances⟩
  obtain ⟨_, hget, _⟩ := hp.visits
  have hlt := (Array.getElem?_eq_some_iff.mp hget).1
  simp [HookState.entering, hlt]

end Processing

/-- A schema that can be written down is classified. -/
theorem assign_eq (source : SourceId) {n : Node} (hj : s.workspace.heap.toJson? n.value = some j) :
    assign source n s = .ok (s.transform.name (classify ⟨j.render, source, n.value, n.pointer, []⟩
        s.transform.groups).1)
      { s with transform := { s.transform with groups := (classify ⟨j.render, source, n.value, n.pointer, []⟩
        s.transform.groups).2 } } := by
  have hheap : (Hook.heap : DedupHook σ Heap) s = .ok s.workspace.heap s := rfl
  rw [assign, bind_of_ok hheap, hj]
  rfl

theorem name_eq {d : SchemaDedup} (hd : d.names = names) (i : Nat) :
    d.name i = SchemaDedup.name { names } i := by
  rw [SchemaDedup.name, hd]
  rfl

section Members

variable {base : Pointer} {x : Segment × Tree} {m : String × Json} {response : String} {out : Proxy}

namespace Processing

/-- What is copied out of the input keeps its value. -/
theorem placeCopy (hp : Processing h names t source visit kept sites s) (hc : h.Closed) {p : Proxy}
    (ho : s.runState.Owns p) (hx : h.Unfolds x.2 j) (hhas : h.Has x.2) {origin : Pointer} {recurse : Bool}
    (hok : (Hook.liftRun (Run.placeCopy p x.1 origin x.2 recurse) : DedupHook σ Unit) s = .ok () s') :
    Processing h names t source visit (kept ++ [(p.location.tokens ++ [x.1.token], j)]) sites s' ∧
      s.runState.Advances s'.runState := by
  obtain ⟨r, hr, rfl⟩ := Hook.exists_of_liftRun_ok hok
  obtain ⟨hacts, hd⟩ := hp.live.placeCopy ho (hp.beside.settled hc hhas hx) hr
  have hp' := hp.acts hacts
  exact ⟨⟨hp'.toFolding.keep hd, hp'.visits, hp'.current⟩, hacts.toAdvances⟩

/-- A schema leaves a reference to its group in its place. -/
theorem schema (hp : Processing h names t source visit kept sites s) (hc : h.Closed)
    (ho : s.runState.Owns out) (hlocation : out.location.tokens = ["responses", response])
    (hbase : base = ⟨[.key "responses", .key response]⟩) (hkey : x.1 = .key "schema")
    (hx : h.Unfolds x.2 j) (hhas : h.Has x.2)
    (hok : (do
        let name ← assign source (Node.open base x)
        let place ← Run.allocateObject out (.ofToken "schema") (Node.open base x).pointer
        Run.place place (.ofToken "$ref") (Node.open base x).pointer (reference name) false :
          DedupHook σ Unit) s = .ok () s') :
    Processing h names t source visit kept (sites ++ [⟨source, response, j⟩]) s' ∧
      s.runState.Advances s'.runState := by
  have hsettled := hp.beside.settled hc hhas hx
  rw [bind_of_ok (assign_eq source (Heap.toJson?_eq_some_iff.mpr hsettled.unfolds))] at hok
  obtain ⟨place, _, hallocate, hplace⟩ := Hook.exists_of_bind_ok hok
  obtain ⟨r₁, hr₁, rfl⟩ := Hook.exists_of_liftRun_ok hallocate
  obtain ⟨r₂, hr₂, rfl⟩ := Hook.exists_of_liftRun_ok hplace
  obtain ⟨hacts₁, howns, hchild, _⟩ := hp.live.allocateObject ho hr₁
  obtain ⟨hacts₂, hd⟩ := hacts₁.live.place howns (RunState.settled_scalar rfl (.string _)) hr₂
  have hacts := hacts₁.trans hacts₂
  have hpath : place.location.tokens ++ [(Segment.ofToken "$ref").token] =
      SchemaSite.reference ⟨source, response, j⟩ := by
    rw [hchild, Pointer.tokens_append, hlocation, Segment.token_ofToken_eq, Segment.token_ofToken_eq]
    rfl
  rw [hpath, name_eq hp.names_eq] at hd
  have hp' := hp.acts hacts
  refine ⟨⟨?_, hp'.visits, hp'.current⟩, hacts.toAdvances⟩
  refine hp.toFolding.found (g := ⟨j.render, source, x.2, base.append x.1, []⟩) hacts.toAdvances
    ⟨rfl, rfl, ?_, rfl, hsettled⟩ rfl hd
  rw [hbase, hkey]
  rfl

/-- A member of a response is copied, or it leaves a reference behind. -/
theorem member (hp : Processing h names t source visit kept sites s) (hc : h.Closed)
    (ho : s.runState.Owns out) (hlocation : out.location.tokens = ["responses", response])
    (hbase : base = ⟨[.key "responses", .key response]⟩) (hx : h.Matches x m) (hhas : h.Has x.2)
    (hok : SchemaDedup.member source out (Node.open base x) s = .ok () s') :
    Processing h names t source visit (kept ++ Input.keptOfMember response m)
      (sites ++ Input.sitesOfMember source response m) s' ∧ s.runState.Advances s'.runState := by
  have htoken : (Node.open base x).key.token = m.1 := congrArg Segment.token hx.1
  rw [SchemaDedup.member, htoken] at hok
  by_cases hschema : m.1 = "schema"
  · rw [if_pos (beq_iff_eq.mpr hschema)] at hok
    obtain ⟨hp', hadvances⟩ := hp.schema hc ho hlocation hbase (hschema ▸ hx.1) hx.2 hhas hok
    rw [Input.keptOfMember, Input.sitesOfMember, if_pos hschema, if_pos hschema, List.append_nil]
    exact ⟨hp', hadvances⟩
  · rw [if_neg (by simpa using hschema)] at hok
    obtain ⟨hp', hadvances⟩ := hp.placeCopy hc ho hx.2 hhas hok
    rw [hlocation, show x.1.token = m.1 from htoken] at hp'
    rw [Input.keptOfMember, Input.sitesOfMember, if_neg hschema, if_neg hschema, List.append_nil]
    exact ⟨hp', hadvances⟩

end Processing

end Members

section Walks

variable {base : Pointer} {u : Tree} {x : Segment × Tree} {m : String × Json} {lo hi : ContainerId}
  {ms : List (String × Json)}

/-- Each member of an object brings what is kept of it and the schemas that are found in it. -/
theorem Processing.forEntries {f : Node → DedupHook σ Unit} {Q : String × Json → Prop}
    (hw : h.Within lo hi t) (hindex : h.Indexable) (hbase : h.resolve? t base = some u)
    (keptOf : String × Json → List (List String × Json)) (sitesOf : String × Json → List SchemaSite)
    (hp : Processing h names t source visit kept sites s)
    (hstep : ∀ kept' sites' m x s₁ s₂, Processing h names t source visit kept' sites' s₁ →
      s.runState.Advances s₁.runState → Q m → x ∈ h.entries u → h.Matches x m →
      f (Node.open base x) s₁ = .ok () s₂ →
      Processing h names t source visit (kept' ++ keptOf m) (sites' ++ sitesOf m) s₂ ∧
        s₁.runState.Advances s₂.runState)
    (hu : h.Unfolds u (.object ms)) (hms : ∀ m ∈ ms, Q m)
    (hok : Hook.forEntries visit base f (h.entries u) s = .ok () s') :
    Processing h names t source visit (kept ++ ms.flatMap keptOf) (sites ++ ms.flatMap sitesOf) s' ∧
      s.runState.Advances s'.runState := by
  refine Hook.forEntries_induction (P := fun done s' =>
      Processing h names t source visit (kept ++ done.flatMap keptOf) (sites ++ done.flatMap sitesOf) s' ∧
        s.runState.Advances s'.runState) (Q := Q) (f := f) hw hindex hbase (fun _ _ hs => hs.1.visits) ?_ ?_
    _ ms [] s s' hu.matches.1 hms (List.Subset.refl _) ⟨by simpa using hp, hp.live.refl⟩ hok
  · intro done s₁ e hs he
    obtain ⟨hp', hadvances⟩ := hs.1.entering he
    exact ⟨hp', hs.2.trans hadvances⟩
  · intro done m x s₁ s₂ hs hm hx hmatch hf
    obtain ⟨hp', hadvances⟩ := hstep _ _ m x s₁ s₂ hs.1 hs.2 hm hx hmatch hf
    refine ⟨?_, hs.2.trans hadvances⟩
    simpa using hp'

variable {p : Proxy}

/-- The members of a response are gone through. -/
theorem Processing.response (hp : Processing h names t source visit kept sites s)
    (hw : h.Within lo hi t) (hindex : h.Indexable) (hc : h.Closed) (ho : s.runState.Owns p)
    (hlocation : p.location.tokens = ["responses"]) (hbase : h.resolve? t ⟨[.key "responses"]⟩ = some u)
    (hmem : x ∈ h.entries u) (hx : h.Matches x m) (hobject : m.2 = .object ms)
    (hok : (do
        let out ← Run.allocateObject p (Node.open ⟨[.key "responses"]⟩ x).key
          (Node.open ⟨[.key "responses"]⟩ x).pointer
        Hook.forMembers visit (Node.open ⟨[.key "responses"]⟩ x) (SchemaDedup.member source out) :
          DedupHook σ Unit) s = .ok () s') :
    Processing h names t source visit (kept ++ Input.keptOfResponse m)
      (sites ++ Input.sitesOfResponse source m) s' ∧ s.runState.Advances s'.runState := by
  have hhas : h.Has x.2 := hc.entries u x hmem
  have hinside := Heap.resolve?_of_mem_entries hindex hbase hmem
  obtain ⟨out, _, hallocate, hok⟩ := Hook.exists_of_bind_ok hok
  obtain ⟨r, hr, rfl⟩ := Hook.exists_of_liftRun_ok hallocate
  obtain ⟨hacts, howns, hout, _⟩ := hp.live.allocateObject ho hr
  have hp' := hp.acts hacts
  have hunfolds : h.Unfolds x.2 (.object ms) := hobject ▸ hx.2
  obtain ⟨_, id, hid⟩ := hunfolds.matches
  rw [Hook.forMembers_open hp'.beside.grows hhas hid] at hok
  have hlocation' : out.location.tokens = ["responses", m.1] := by
    rw [hout, Pointer.tokens_append, hlocation]
    exact congrArg (["responses"] ++ [·]) (congrArg Segment.token hx.1)
  obtain ⟨hp₂, hadvances⟩ := hp'.forEntries (Q := fun _ => True) hw hindex hinside
    (Input.keptOfMember m.1) (Input.sitesOfMember source m.1)
    (fun _ _ m' y s₁ s₂ hs₁ hadv _ hy hmatch hf =>
      hs₁.member hc (hadv.owns out howns) hlocation' (by rw [hx.1]; rfl) hmatch (hc.entries _ y hy) hf)
    hunfolds (fun _ _ => trivial) hok
  rw [Input.keptOfResponse, Input.sitesOfResponse, hobject]
  exact ⟨hp₂, hacts.toAdvances.trans hadvances⟩

/-- The responses of a document are gone through. -/
theorem Processing.responses (hp : Processing h names t source visit kept sites s)
    (hw : h.Within lo hi t) (hindex : h.Indexable) (hc : h.Closed) (ho : s.runState.Owns p)
    (hlocation : p.location.tokens = []) (hbase : h.resolve? t .root = some u) (hmem : x ∈ h.entries u)
    (hx : h.Matches x m) (hname : m.1 = "responses") {rs : List (String × Json)} (hobject : m.2 = .object rs)
    (hobjects : ∀ r ∈ rs, ∃ ms, r.2 = .object ms)
    (hok : SchemaDedup.responses p visit (Node.open .root x) s = .ok () s') :
    Processing h names t source visit (kept ++ rs.flatMap Input.keptOfResponse)
      (sites ++ rs.flatMap (Input.sitesOfResponse source)) s' ∧ s.runState.Advances s'.runState := by
  have hhas : h.Has x.2 := hc.entries u x hmem
  have hinside := Heap.resolve?_of_mem_entries hindex hbase hmem
  have hkey : x.1 = .key "responses" := hname ▸ hx.1
  rw [hkey] at hinside
  rw [SchemaDedup.responses, get_bind, hp.current] at hok
  obtain ⟨out, _, hopen, hok⟩ := Hook.exists_of_bind_ok hok
  obtain ⟨r, hr, rfl⟩ := Hook.exists_of_liftRun_ok hopen
  obtain ⟨hacts, howns, hout⟩ := hp.live.openObject ho hr
  have hp' := hp.acts hacts
  have hunfolds : h.Unfolds x.2 (.object rs) := hobject ▸ hx.2
  obtain ⟨_, id, hid⟩ := hunfolds.matches
  rw [Hook.forMembers_open hp'.beside.grows hhas hid, hkey] at hok
  have hlocation' : out.location.tokens = ["responses"] := by
    rw [hout, Pointer.tokens_append, hlocation, Segment.token_ofToken_eq]
    rfl
  obtain ⟨hp₂, hadvances⟩ := hp'.forEntries (Q := fun r => ∃ ms, r.2 = .object ms) hw hindex hinside
    Input.keptOfResponse (Input.sitesOfResponse source)
    (fun _ _ m' y s₁ s₂ hs₁ hadv ⟨ms, hms⟩ hy hmatch hf =>
      hs₁.response hw hindex hc (hadv.owns out howns) hlocation' hinside hy hmatch hms hf)
    hunfolds hobjects hok
  exact ⟨hp₂, hacts.toAdvances.trans hadvances⟩

/-- A member of a document is copied, or its responses are gone through. -/
theorem Processing.root (hp : Processing h names t source visit kept sites s)
    (hw : h.Within lo hi t) (hindex : h.Indexable) (hc : h.Closed) (ho : s.runState.Owns p)
    (hlocation : p.location.tokens = []) (hbase : h.resolve? t .root = some u) (hmem : x ∈ h.entries u)
    (hx : h.Matches x m)
    (hresponses : m.1 = "responses" → ∃ rs, m.2 = .object rs ∧ ∀ r ∈ rs, ∃ ms, r.2 = .object ms)
    (hok : (if (Node.open .root x).key.token == "responses" then
          SchemaDedup.responses p visit (Node.open .root x)
        else Run.placeCopy p (Node.open .root x).key (Node.open .root x).pointer (Node.open .root x).value
          true : DedupHook σ Unit) s = .ok () s') :
    Processing h names t source visit (kept ++ Input.keptOfRoot m) (sites ++ Input.sitesOfRoot source m) s' ∧
      s.runState.Advances s'.runState := by
  have htoken : (Node.open .root x).key.token = m.1 := congrArg Segment.token hx.1
  rw [htoken] at hok
  by_cases hname : m.1 = "responses"
  · rw [if_pos (beq_iff_eq.mpr hname)] at hok
    obtain ⟨rs, hobject, hobjects⟩ := hresponses hname
    rw [Input.keptOfRoot, Input.sitesOfRoot, if_pos hname, if_pos hname, hobject]
    exact hp.responses hw hindex hc ho hlocation hbase hmem hx hname hobject hobjects hok
  · rw [if_neg (by simpa using hname)] at hok
    obtain ⟨hp', hadvances⟩ := hp.placeCopy hc ho hx.2 (hc.entries u x hmem) hok
    rw [hlocation, show x.1.token = m.1 from htoken] at hp'
    rw [Input.keptOfRoot, Input.sitesOfRoot, if_neg hname, if_neg hname, List.append_nil]
    exact ⟨hp', hadvances⟩

end Walks

/-- The tree is that of the document, and each of its containers stands at one place. -/
structure Input.Reads (h : Heap) (t : Tree) (d : Input) : Prop where
  unfolds : h.Unfolds t (.object d.members)
  within : ∃ lo hi, h.Within lo hi t
  has : h.Has t

namespace Folding

/-- A new traversal has entered the root of the document and nothing else. -/
theorem turned (hf : Folding h names kept sites s) (source : SourceId) (id : ContainerId) :
    Processing h names (.container id) source s.workspace.traversals.size kept sites
        (Job.turned s source (.container id)) ∧
      s.runState.Advances (Job.turned s source (.container id)).runState := by
  have hadvances : s.runState.Advances (Job.turned s source (.container id)).runState :=
    hf.live.advances_beside rfl rfl rfl rfl (.refl _) hf.live.sound.placed.indexable hf.live.whole.closed
  refine ⟨⟨hf.advances hadvances rfl, ⟨OrderedMap.empty.insert id .root, ?_, ?_⟩, rfl⟩, hadvances⟩
  · simp [Job.turned, Workspace.visit, Heap.visit]
  · intro i p hp
    rw [OrderedMap.get?_insert] at hp
    split at hp
    · rename_i heq
      cases hp
      rw [heq]
      rfl
    · cases hp

/-- One document is processed. -/
theorem process (hf : Folding h names kept sites s) (hindex : h.Indexable) (hc : h.Closed) {d : Input}
    (hd : d.Reads h t) (hresponses : d.HasResponses)
    (hok : (SchemaDedup.transform.process s.run.root (s.workspace.visit t).1.1 (s.workspace.visit t).1.2)
      (Job.turned s d.source t) = .ok () s') :
    Folding h names (kept ++ d.kept) (sites ++ d.sites) s' := by
  obtain ⟨lo, hi, hw⟩ := hd.within
  obtain ⟨_, id, rfl⟩ := hd.unfolds.matches
  obtain ⟨hp, hadvances⟩ := hf.turned d.source id
  have hbase : h.resolve? (.container id) .root = some (.container id) := rfl
  have hentries : s.workspace.heap.entries (.container id) = h.entries (.container id) :=
    hf.beside.grows.entries_eq hd.has
  have hwalk : Hook.forEntries s.workspace.traversals.size .root (fun n =>
      if n.key.token == "responses" then SchemaDedup.responses s.run.root s.workspace.traversals.size n
      else Run.placeCopy s.run.root n.key n.pointer n.value true) (h.entries (.container id))
      (Job.turned s d.source (.container id)) = .ok () s' := by
    rw [← hentries]
    exact hok
  refine (hp.forEntries (Q := fun m => m.1 = "responses" → ∃ rs, m.2 = .object rs ∧
      ∀ r ∈ rs, ∃ ms, r.2 = .object ms) hw hindex hbase Input.keptOfRoot (Input.sitesOfRoot d.source)
    (fun _ _ m x s₁ s₂ hs₁ hadv hm hx hmatch hstep => ?_) hd.unfolds hresponses hwalk).1.toFolding
  exact hs₁.root hw hindex hc (hadv.owns _ (hadvances.owns _ hf.owns)) hf.location hbase hx hmatch hm hstep

/-- All documents are processed, one after the other. -/
theorem processInputs (hindex : h.Indexable) (hc : h.Closed) {inputs : List (SourceId × Tree)}
    {ds : List Input} (hds : List.Forall₂ (fun x d => x.1 = d.source ∧ d.Reads h x.2) inputs ds)
    (hresponses : ∀ d ∈ ds, d.HasResponses) (hf : Folding h names kept sites s)
    (hok : Job.processInputs SchemaDedup.transform inputs s = .ok () s') :
    Folding h names (kept ++ ds.flatMap Input.kept) (sites ++ ds.flatMap Input.sites) s' := by
  induction hds generalizing kept sites s with
  | nil =>
    cases hok
    simpa using hf
  | @cons x d inputs ds hd _ ih =>
    obtain ⟨source, tree⟩ := x
    obtain ⟨rfl, hreads⟩ := hd
    rw [Job.processInputs_turned] at hok
    obtain ⟨_, s₁, hfirst, hok⟩ := Hook.exists_of_bind_ok hok
    obtain ⟨hd', hds'⟩ := List.forall_mem_cons.mp hresponses
    have := ih hds' (hf.process hindex hc hreads hd' hfirst) hok
    simpa using this

end Folding

end SchemaDedup

end Lineage
