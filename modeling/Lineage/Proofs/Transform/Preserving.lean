import Lineage.Proofs.Transform.Meaning

/-! Runs that fold schemas preserve their inputs. A reference is the text of a pointer as long as no name
needs to be escaped, and the pointer leads to the component of the group. So the value of a schema is found
through its reference, and equal references are those of equal schemas. -/

namespace Lineage

namespace Pointer

/-- The pointer to a member under the names. -/
def ofNames (names : List String) : Pointer := ⟨names.map .key⟩

/-- A text that is not changed by escaping. -/
def Plain (text : String) : Prop := '/' ∉ text.toList ∧ '~' ∉ text.toList

instance (text : String) : Decidable (Plain text) :=
  inferInstanceAs (Decidable ('/' ∉ text.toList ∧ '~' ∉ text.toList))

variable {text : String} {names : List String}

@[simp] theorem tokens_ofNames (names : List String) : (ofNames names).tokens = names := by
  rw [tokens, ofNames, List.map_map]
  exact List.map_id names

theorem Plain.escape_eq (ht : Plain text) : escape text.toList = text.toList := by
  have hchar : ∀ c ∈ text.toList, escapedChar c = [c] := by
    intro c hc
    have htilde : c ≠ '~' := fun heq => ht.2 (heq ▸ hc)
    have hslash : c ≠ '/' := fun heq => ht.1 (heq ▸ hc)
    rw [escapedChar, if_neg htilde, if_neg hslash]
  rw [escape, List.flatMap_congr hchar, List.flatMap_singleton']

/-- Plain names are written as they are. -/
theorem toList_render_ofNames (hnames : ∀ n ∈ names, Plain n) :
    (ofNames names).render.toList = joinSlashes (names.map String.toList) := by
  rw [toList_render, escaped, tokens_ofNames]
  exact congrArg joinSlashes (List.map_congr_left fun n hn => (hnames n hn).escape_eq)

/-- What is read from the text of a pointer leads where the pointer leads. -/
theorem resolve?_canonical (h : Heap) (t : Tree) (p : Pointer) :
    h.resolve? t p.canonical = h.resolve? t p :=
  h.follow?_congr t (beq_iff.mp p.canonical_beq)

end Pointer

/-- Only a text unfolds to a text. -/
theorem Heap.Unfolds.eq_string {h : Heap} {v : Tree} {text : String} (hv : h.Unfolds v (.string text)) :
    v = .string text := by
  cases v with
  | string => cases hv; rfl
  | container id =>
    obtain ⟨vs, _, hcontainer⟩ := Heap.unfolds_container_iff.mp hv
    cases hkind : h.isArray (.container id) <;> rw [hkind] at hcontainer <;> cases hcontainer
  | null | bool _ | number _ => cases hv

namespace SchemaDedup

open Pointer

variable {names : List String} {kept : List (List String × Json)} {sites : List SchemaSite} {s : RunState}
  {g : SchemaGroup} {items : List SchemaGroup} {x y : SchemaSite} {i k : Nat}

section References

/-- No name is escaped, be it one of the given names or a numbered one. -/
theorem plain_name (hnames : ∀ n ∈ names, Plain n) (i : Nat) : Plain (SchemaDedup.name { names } i) := by
  rw [SchemaDedup.name]
  cases hget : names[i]? with
  | some n => exact hnames n (List.mem_of_getElem? hget)
  | none =>
    have hdigits : ∀ c ∈ (Nat.repr (i + 1)).toList, c.isDigit = true := by
      intro c hc
      rw [Nat.repr, String.toList_ofList] at hc
      exact Nat.isDigit_of_mem_toDigits (by decide) (by decide) hc
    rw [Option.getD_none, Plain, String.toList_append, List.mem_append, List.mem_append, not_or, not_or]
    exact ⟨⟨by decide +kernel, fun hc => absurd (hdigits _ hc) (by decide)⟩,
      ⟨by decide +kernel, fun hc => absurd (hdigits _ hc) (by decide)⟩⟩

/-- A reference is the text of the pointer to a component behind the sign of a fragment. -/
theorem referenceText_eq (hnames : ∀ n ∈ names, Plain n) (i : Nat) :
    referenceText names i = "#" ++ (ofNames (componentPath names i)).render := by
  have hplain : ∀ n ∈ componentPath names i, Plain n := by
    simp only [componentPath, List.forall_mem_cons]
    exact ⟨⟨by decide +kernel, by decide +kernel⟩, ⟨by decide +kernel, by decide +kernel⟩,
      plain_name hnames i, fun _ hn => nomatch hn⟩
  have hrender : (ofNames (componentPath names i)).render.toList =
      "/components/schemas/".toList ++ (SchemaDedup.name { names } i).toList := by
    refine (toList_render_ofNames hplain).trans ?_
    simp only [componentPath, List.map_cons, List.map_nil, joinSlashes, List.flatMap_cons, List.flatMap_nil,
      List.append_nil]
    rfl
  have htext : (ofNames (componentPath names i)).render =
      "/components/schemas/" ++ SchemaDedup.name { names } i :=
    String.toList_inj.mp (hrender.trans String.toList_append.symm)
  exact (@String.append_assoc "#" "/components/schemas/" _).trans (congrArg ("#" ++ ·) htext.symm)

theorem referenceText_inj :
    referenceText names i = referenceText names k ↔
      SchemaDedup.name { names } i = SchemaDedup.name { names } k :=
  String.append_right_inj "#/components/schemas/"

end References

/-- Where the sites are, one after the other. -/
def locators? (sites : List SchemaSite) : Option String :=
  if sites.isEmpty then none else some (",".intercalate (sites.map (·.pointer.render)))

/-- The output keeps the meaning of the documents. -/
structure Preserves (ds : List Input) (h : Heap) (o : RunOutput) : Prop where
  /-- Everything else comes out at its place with its value. -/
  kept : ∀ x ∈ ds.flatMap Input.kept,
    ∃ v, h.resolve? o.tree (ofNames x.1) = some v ∧ h.toJson? v = some x.2
  /-- In place of a schema there is a reference to a component with its value. -/
  schemas : ∀ x ∈ ds.flatMap Input.sites, ∃ name text p v,
    h.resolve? o.tree (ofNames x.reference) = some (.string ("#" ++ text)) ∧ parse text = .ok p ∧
      (p == ofNames ["components", "schemas", name]) = true ∧ h.resolve? o.tree p = some v ∧
      h.toJson? v = some x.schema
  references : ∀ x ∈ ds.flatMap Input.sites, ∀ y ∈ ds.flatMap Input.sites,
    h.resolve? o.tree (ofNames x.reference) = h.resolve? o.tree (ofNames y.reference) ↔
      x.schema.render = y.schema.render
  /-- A component comes from the first schema that refers to it, and the mapping tells of the later ones. -/
  components : ∀ name v, h.resolve? o.tree (ofNames ["components", "schemas", name]) = some v →
    ∃ before x after, ds.flatMap Input.sites = before ++ x :: after ∧
      (∀ b ∈ before, b.schema.render ≠ x.schema.render) ∧
      h.resolve? o.tree (ofNames x.reference) = some (.string ("#/components/schemas/" ++ name)) ∧
      ∃ m ∈ o.mappings, (m.generated == ofNames ["components", "schemas", name]) = true ∧
        m.source = x.source ∧ m.origin = x.pointer ∧
        m.auxiliary = locators? (after.filter fun y => y.schema.render = x.schema.render) ∧
        ∀ n ∈ o.mappings, (n.generated == ofNames ["components", "schemas", name]) = true → n = m

/-- What was delivered is found there and is written down like the value. -/
theorem exists_of_delivered {path : List String} {j : Json} (hd : s.Delivered path j) : ∃ v,
    s.workspace.heap.resolve? s.run.root.tree (ofNames path) = some v ∧
      s.workspace.heap.toJson? v = some j := by
  obtain ⟨v, hv, hsettled⟩ := hd
  exact ⟨v, hv, Heap.toJson?_eq_some_iff.mpr hsettled.unfolds⟩

theorem resolve?_of_delivered {path : List String} {text : String} (hd : s.Delivered path (.string text)) :
    s.workspace.heap.resolve? s.run.root.tree (ofNames path) = some (.string text) := by
  obtain ⟨v, hv, hsettled⟩ := hd
  rw [← hsettled.unfolds.eq_string]
  exact hv

namespace Tells

variable {before after : List SchemaSite}

/-- The locator of a group tells of the later sites. -/
theorem locator?_eq (htells : Tells s g before x after) :
    locator? g = locators? (after.filter fun y => y.schema.render = x.schema.render) := by
  rw [locator?, locators?, htells.folded, List.isEmpty_map, List.map_map]
  rfl

/-- A group with the text of a schema has its value. -/
theorem settled_of_render_eq (htells : Tells s g before x after) (hy : g.canonical = y.schema.render) :
    s.Settled g.value y.schema := by
  have hcanonical : g.canonical = x.schema.render := htells.represents.canonical
  rw [← Json.render_injective (hcanonical.symm.trans hy)]
  exact htells.represents.value

end Tells

/-- No two mappings speak of one place. -/
theorem eq_of_generated (hs : s.Live) {m n : Mapping} (hm : m ∈ s.mappings) (hn : n ∈ s.mappings)
    (heq : n.generated.tokens = m.generated.tokens) : n = m := by
  by_contra hne
  have : Std.Symm fun m n : Mapping => m.generated.tokens ≠ n.generated.tokens := ⟨fun _ _ h => h.symm⟩
  exact hs.sound.accounted.distinct.forall hn hm hne heq

namespace Outcome

variable (ho : Outcome names kept sites items s)

include ho

/-- A reference leads to the value of the schema that it stands for. -/
theorem leads (hnames : ∀ n ∈ names, Plain n) (hx : x ∈ sites) : ∃ name text p v,
    s.workspace.heap.resolve? s.run.root.tree (ofNames x.reference) = some (.string ("#" ++ text)) ∧
      parse text = .ok p ∧ (p == ofNames ["components", "schemas", name]) = true ∧
      s.workspace.heap.resolve? s.run.root.tree p = some v ∧
      s.workspace.heap.toJson? v = some x.schema := by
  obtain ⟨i, hi, hd⟩ := ho.references x hx
  obtain ⟨g, hg, hcanonical⟩ : ∃ g, (collect items)[i]? = some g ∧ g.canonical = x.schema.render := by
    rwa [texts, List.getElem?_map, Option.map_eq_some_iff] at hi
  obtain ⟨_, _, _, _, htells⟩ := exists_tells_of_mem_collect ho.represents (List.mem_of_getElem? hg)
  obtain ⟨v, hv, hj⟩ := exists_of_delivered (ho.components i g hg _ (htells.settled_of_render_eq hcanonical))
  refine ⟨SchemaDedup.name { names } i, (ofNames (componentPath names i)).render, _, v, ?_, parse_render _,
    canonical_beq _, (resolve?_canonical _ _ _).trans hv, hj⟩
  rw [← referenceText_eq hnames]
  exact resolve?_of_delivered hd

/-- Groups have different names, and so equal references are those of one group. -/
theorem reference_eq_iff (hx : x ∈ sites) (hy : y ∈ sites) :
    s.workspace.heap.resolve? s.run.root.tree (ofNames x.reference) =
        s.workspace.heap.resolve? s.run.root.tree (ofNames y.reference) ↔
      x.schema.render = y.schema.render := by
  obtain ⟨i, hi, hdx⟩ := ho.references x hx
  obtain ⟨k, hk, hdy⟩ := ho.references y hy
  have hlength : (texts (collect items)).length = (collect items).length := List.length_map _
  rw [resolve?_of_delivered hdx, resolve?_of_delivered hdy, Option.some.injEq, Tree.string.injEq,
    referenceText_inj]
  constructor
  · intro hname
    rw [ho.apart i (hlength ▸ (List.getElem?_eq_some_iff.mp hi).1) k
      (hlength ▸ (List.getElem?_eq_some_iff.mp hk).1) hname, hk] at hi
    exact (Option.some.inj hi).symm
  · intro hrender
    rw [position_eq hi (hrender ▸ hk)]

/-- A component comes from the first site of its group, which refers to it, and it tells of the later ones. -/
theorem component {name : String} {v : Tree}
    (hv : s.workspace.heap.resolve? s.run.root.tree (ofNames ["components", "schemas", name]) = some v) :
    ∃ before x after, sites = before ++ x :: after ∧ (∀ b ∈ before, b.schema.render ≠ x.schema.render) ∧
      s.workspace.heap.resolve? s.run.root.tree (ofNames x.reference) =
        some (.string ("#/components/schemas/" ++ name)) ∧
      ∃ m ∈ s.mappings, (m.generated == ofNames ["components", "schemas", name]) = true ∧
        m.source = x.source ∧ m.origin = x.pointer ∧
        m.auxiliary = locators? (after.filter fun y => y.schema.render = x.schema.render) := by
  obtain ⟨i, hi, rfl⟩ := ho.only name v hv
  have hg := List.getElem?_eq_getElem hi
  generalize (collect items)[i] = g at hg
  obtain ⟨before, x, after, hsites, htells⟩ :=
    exists_tells_of_mem_collect ho.represents (List.mem_of_getElem? hg)
  obtain ⟨m, hm, hgenerated, hsource, horigin, hauxiliary⟩ := ho.mapped i g hg
  refine ⟨before, x, after, hsites, htells.first, ?_, m, hm, ?_, hsource.trans htells.represents.source,
    horigin.trans htells.represents.first, hauxiliary.trans htells.locator?_eq⟩
  · obtain ⟨k, hk, hd⟩ := ho.references x (hsites ▸ List.mem_append_right _ List.mem_cons_self)
    have hposition : (texts (collect items))[i]? = some x.schema.render := by
      rw [texts, List.getElem?_map, hg]
      exact congrArg some htells.represents.canonical
    rw [position_eq hposition hk]
    exact resolve?_of_delivered hd
  · rw [beq_iff, hgenerated, tokens_ofNames]
    rfl

/-- What a finished run has delivered keeps the meaning of the documents. -/
theorem preserves {ds : List Input} (hnames : ∀ n ∈ names, Plain n) (hkept : kept = ds.flatMap Input.kept)
    (hsites : sites = ds.flatMap Input.sites) :
    Preserves ds s.workspace.heap ⟨s.run.root.tree, s.mappings⟩ := by
  subst hkept hsites
  refine ⟨fun x hx => exists_of_delivered (ho.delivered x hx), fun x hx => ho.leads hnames hx,
    fun x hx y hy => ho.reference_eq_iff hx hy, fun name v hv => ?_⟩
  obtain ⟨before, x, after, hsites, hfirst, hreference, m, hm, hgenerated, hrest⟩ := ho.component hv
  refine ⟨before, x, after, hsites, hfirst, hreference, m, hm, hgenerated, hrest.1, hrest.2.1, hrest.2.2,
    fun n hn hn' => eq_of_generated ho.live hm hn ?_⟩
  exact (beq_iff.mp hn').trans (beq_iff.mp hgenerated).symm

end Outcome

section Result

variable {σ : Type} {w : Workspace} {ds : List Input} {id : RunId} {ambient : σ}

/-- What the hooks of a job leave behind. -/
theorem outcome_of_hooks (hc : w.heap.Closed) (hindex : (addInputs w.heap ds).2.Indexable)
    (hids : (ds.map Input.source).Nodup) (hdistinct : ∀ d ∈ ds, d.json.DistinctNames)
    (hresponses : ∀ d ∈ ds, d.HasResponses) {s : HookState σ SchemaDedup}
    (hok : Job.hooks transform (job id names ambient w ds).hookState = .ok () s) :
    ∃ items, Outcome names (ds.flatMap Input.kept) (ds.flatMap Input.sites) items s.runState := by
  have hstart := folding_job hc hindex id names ambient
  have hinputs := inputs_job (w := w) hids id names ambient
  generalize (job id names ambient w ds).hookState = start at hstart hinputs hok
  have hprepare : (transform (σ := σ)).prepare start = .ok () start := rfl
  rw [Job.hooks, bind_of_ok hprepare, get_bind, hinputs] at hok
  obtain ⟨_, processed, hprocess, hconclude⟩ := Hook.exists_of_bind_ok hok
  have hprocessed := hstart.processInputs hindex (addInputs_closed hc ds).1 (addInputs_reads hc hdistinct)
    hresponses hprocess
  -- between the last document and the components the current input is taken back
  have hadvances : processed.runState.Advances
      { processed with run := { processed.run with current := none } }.runState :=
    hprocessed.live.advances_beside rfl rfl rfl rfl (.refl _) hprocessed.live.sound.placed.indexable
      hprocessed.live.whole.closed
  exact (hprocessed.advances hadvances rfl).conclude hconclude

/-- Folding equal schemas keeps the meaning of documents. Each document is built from a value of its own, and
the names of the groups need no escaping. Items are counted by words of 64 bits, so that no array is longer. -/
theorem result_preserves (hc : w.heap.Closed) (hindex : (addInputs w.heap ds).2.Indexable)
    (hids : (ds.map Input.source).Nodup) (hdistinct : ∀ d ∈ ds, d.json.DistinctNames)
    (hresponses : ∀ d ∈ ds, d.HasResponses) (hnames : ∀ n ∈ names, Plain n)
    {o : RunOutput} {s : JobState σ SchemaDedup}
    (hr : Job.result transform (job id names ambient w ds) = .ok o s) : Preserves ds s.workspace.heap o := by
  rcases Job.result_cases (t := transform) (s := job id names ambient w ds) rfl with
    ⟨e, _, _, herror⟩ | ⟨_, hhooks, hresult⟩
  · rw [herror] at hr
    cases hr
  · rw [hresult] at hr
    cases hr
    obtain ⟨_, ho⟩ := outcome_of_hooks hc hindex hids hdistinct hresponses hhooks
    exact ho.preserves hnames rfl rfl

/-- Two documents with a schema in common, and with one that only the second has. -/
def kin : List Input :=
  [⟨⟨"a"⟩, [("title", .string "A"), ("responses", .object
      [("200", .object [("note", .null), ("schema", .object [("type", .string "text")])])])]⟩,
    ⟨⟨"b"⟩, [("responses", .object
      [("404", .object [("schema", .object [("type", .string "text")])]),
        ("500", .object [("schema", .bool true)])])]⟩]

theorem result_preserves_kin : ∃ o s,
    Job.result transform (job default ["Text"] () {} kin) = .ok o s ∧
    (o.mappings.filter fun m => m.generated.length == 3 && m.generated.startsWith (ofNames ["components"])).map
        (fun m => (m.generated.render, m.origin.render, m.auxiliary)) =
      [("/components/schemas/Text", "/responses/200/schema", some "/responses/404/schema"),
        ("/components/schemas/Schema2", "/responses/500/schema", none)] ∧
    Preserves kin s.workspace.heap o := by
  have hmappings : (match Job.result transform (job default ["Text"] () {} kin) with
      | .ok o _ => (o.mappings.filter fun m =>
          m.generated.length == 3 && m.generated.startsWith (ofNames ["components"])).map
            (fun m => (m.generated.render, m.origin.render, m.auxiliary))
      | .error _ _ => []) =
      [("/components/schemas/Text", "/responses/200/schema", some "/responses/404/schema"),
        ("/components/schemas/Schema2", "/responses/500/schema", none)] := by
    decide +kernel
  have hbuilt : ∀ d ∈ kin, (Heap.addJson {} d.json).2.toJson? (Heap.addJson {} d.json).1 = some d.json :=
    List.forall_mem_cons.mpr ⟨rfl, List.forall_mem_singleton.mpr rfl⟩
  have hresponses : ∀ d ∈ kin, d.HasResponses := by
    refine List.forall_mem_cons.mpr ⟨List.forall_mem_cons.mpr ⟨fun hname => absurd hname (by decide), ?_⟩,
      List.forall_mem_singleton.mpr ?_⟩
    · exact List.forall_mem_singleton.mpr fun _ => ⟨_, rfl, by simp⟩
    · exact List.forall_mem_singleton.mpr fun _ => ⟨_, rfl, by simp⟩
  cases hr : Job.result transform (job default ["Text"] () {} kin) with
  | error e s =>
    rw [hr] at hmappings
    cases hmappings
  | ok o s =>
    rw [hr] at hmappings
    refine ⟨o, s, rfl, hmappings, ?_⟩
    exact result_preserves (w := {}) (by decide +kernel) (by decide +kernel) (by decide)
      (fun d hd => (Heap.toJson?_eq_some_iff.mp (hbuilt d hd)).distinctNames) hresponses
      (by decide +kernel) hr

end Result

end SchemaDedup

end Lineage
