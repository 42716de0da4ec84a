import Lineage.Proofs.Json.Text
import Lineage.Proofs.Run.Explained
import Lineage.Proofs.Transform.Inputs

/-! Folding schemas keeps the meaning of documents. At the end of a run each group gets a component under
its name. A name that is taken would be refused, so the references tell the groups apart, and they lead to
components with the values of the schemas that they stand for: a group is known by its text, and the text of
a value tells the value. Everything else is copied to the place it came from. -/

namespace Lineage.SchemaDedup

variable {σ : Type} {s s' : HookState σ SchemaDedup} {schemas : Proxy} {d : SchemaDedup} {g : SchemaGroup}
  {groups : List SchemaGroup} {position : Nat} {name : String} {j : Json}

section Components

/-- The mapping of a component names the first schema of its group, and the later ones beside it. -/
def Mapped (s : RunState) (path : List String) (g : SchemaGroup) : Prop :=
  ∃ m ∈ s.mappings, m.generated.tokens = path ∧ m.source = g.source ∧ m.origin = g.first ∧
    m.auxiliary = locator? g

theorem Mapped.advances {s s' : RunState} {path : List String} (hm : Mapped s path g)
    (hs : s.Advances s') : Mapped s' path g := by
  obtain ⟨m, hm, hrest⟩ := hm
  exact ⟨m, hs.mappings hm, hrest⟩

/-- A group has got its component under a name that was free, as a copy of its value. -/
structure Added (schemas : Proxy) (name : String) (g : SchemaGroup) (s s' : RunState) : Prop where
  advances : s.Advances s'
  vacant : s.memberAt schemas.backing name = none
  member : (s'.memberAt schemas.backing name).isSome
  others : ∀ n, n ≠ name → s'.memberAt schemas.backing n = s.memberAt schemas.backing n
  mapped : Mapped s' (schemas.location.tokens ++ [name]) g
  delivered : ∀ j, s.Settled g.value j → s'.Delivered (schemas.location.tokens ++ [name]) j

theorem component_ok (hs : s.runState.Live) (ho : s.runState.Owns schemas)
    (hg : ∃ j, s.runState.Settled g.value j) (hok : component schemas name g s = .ok () s') :
    Added schemas name g s.runState s'.runState := by
  obtain ⟨j, hj⟩ := hg
  have hcopied := hs.duplicated hj.has
  have hduplicate : (Hook.onWorkspace fun w => ((w.heap.duplicate g.value).1,
      { w with heap := (w.heap.duplicate g.value).2 }) : DedupHook σ Tree) s =
      .ok (s.workspace.heap.duplicate g.value).1
        (s.withRun (Run.duplicated s.runState g.value)) := rfl
  rw [component, bind_of_ok hduplicate] at hok
  obtain ⟨r, hr, rfl⟩ := Hook.exists_of_liftRun_ok hok
  have hwrote : (Run.duplicated s.runState g.value).Wrote schemas (.ofToken name)
      { value := (s.workspace.heap.duplicate g.value).1, origin := some g.first, source := some g.source,
        auxiliary := locator? g, recurse := true } r :=
    hcopied.live.write (hcopied.owns _ ho) (hs.whole.closed.duplicate hj.has).2 hr
  have hbefore : ∀ n, (Run.duplicated s.runState g.value).memberAt schemas.backing n =
      s.runState.memberAt schemas.backing n := fun n =>
    (Heap.grows_duplicate s.workspace.heap g.value).member?
      (hs.sound.placed.lt_size _ _ ho.1) (.key n)
  refine ⟨hcopied.trans hwrote.toAdvances, ?_, ?_, fun n hn => ?_, ?_, fun j' hj' => ?_⟩
  · have hvacant := hwrote.vacant
    rwa [Segment.token_ofToken_eq, hbefore] at hvacant
  · have hmember := hwrote.member schemas.backing name
    rw [Segment.token_ofToken_eq, if_pos ⟨rfl, rfl⟩] at hmember
    exact Option.isSome_iff_exists.mpr ⟨_, hmember⟩
  · refine (hwrote.member schemas.backing n).trans ?_
    rw [Segment.token_ofToken_eq, if_neg fun hh => hn hh.2, hbefore]
  · refine ⟨_, hwrote.mapping g.first rfl, ?_, rfl, rfl, rfl⟩
    rw [Proxy.tokens_topMapping, Segment.token_ofToken_eq]
  · have hd := hwrote.delivered (hcopied.owns _ ho) (hs.settled_duplicate hj')
    rwa [Segment.token_ofToken_eq] at hd

/-- The groups under the names of their components. -/
def withNames (d : SchemaDedup) (position : Nat) (groups : List SchemaGroup) : List (String × SchemaGroup) :=
  groups.mapIdx fun i g => (d.name (position + i), g)

theorem withNames_cons (d : SchemaDedup) (position : Nat) (g : SchemaGroup) (rest : List SchemaGroup) :
    withNames d position (g :: rest) = (d.name position, g) :: withNames d (position + 1) rest := by
  simp [withNames, List.mapIdx_cons, Nat.add_assoc, Nat.add_comm 1]

theorem getElem?_withNames (d : SchemaDedup) (position i : Nat) :
    (withNames d position groups)[i]? = groups[i]?.map fun g => (d.name (position + i), g) :=
  List.getElem?_mapIdx

/-- Between two states groups have got their components, under names that were free and differ from each
other. -/
structure Composed (schemas : Proxy) (named : List (String × SchemaGroup)) (s s' : RunState) : Prop where
  advances : s.Advances s'
  vacant : ∀ x ∈ named, s.memberAt schemas.backing x.1 = none
  apart : (named.map Prod.fst).Nodup
  only : ∀ n, (s'.memberAt schemas.backing n).isSome →
    (s.memberAt schemas.backing n).isSome ∨ n ∈ named.map Prod.fst
  mapped : ∀ x ∈ named, Mapped s' (schemas.location.tokens ++ [x.1]) x.2
  delivered : ∀ x ∈ named, ∀ j, s.Settled x.2.value j →
    s'.Delivered (schemas.location.tokens ++ [x.1]) j

theorem Composed.nil {s : RunState} (hs : s.Live) : Composed schemas [] s s where
  advances := hs.refl
  vacant _ hx := nomatch hx
  apart := .nil
  only _ hn := .inl hn
  mapped _ hx := nomatch hx
  delivered _ hx := nomatch hx

/-- The names that follow were free when the first one was taken. -/
theorem Composed.cons {s s₁ s' : RunState} {named : List (String × SchemaGroup)}
    (hfirst : Added schemas name g s s₁) (hrest : Composed schemas named s₁ s') :
    Composed schemas ((name, g) :: named) s s' := by
  have hne : ∀ x ∈ named, x.1 ≠ name := by
    intro x hx heq
    have hfree := hrest.vacant x hx
    have hmember := hfirst.member
    rw [← heq, hfree] at hmember
    cases hmember
  refine ⟨hfirst.advances.trans hrest.advances, List.forall_mem_cons.mpr ⟨hfirst.vacant, fun x hx => ?_⟩,
    List.nodup_cons.mpr ⟨fun hmem => ?_, hrest.apart⟩, fun n hn => ?_,
    List.forall_mem_cons.mpr ⟨hfirst.mapped.advances hrest.advances, hrest.mapped⟩,
    List.forall_mem_cons.mpr ⟨fun j hj => (hfirst.delivered j hj).advances hrest.advances,
      fun x hx j hj => hrest.delivered x hx j (hj.advances hfirst.advances)⟩⟩
  · rw [← hfirst.others x.1 (hne x hx)]
    exact hrest.vacant x hx
  · obtain ⟨x, hx, heq⟩ := List.mem_map.mp hmem
    exact hne x hx heq
  · rcases hrest.only n hn with hbefore | hlater
    · by_cases heq : n = name
      · exact .inr (heq ▸ List.mem_cons_self)
      · rw [hfirst.others n heq] at hbefore
        exact .inl hbefore
    · exact .inr (List.mem_cons_of_mem _ hlater)

theorem components_ok (hs : s.runState.Live) (ho : s.runState.Owns schemas)
    (hgroups : ∀ g ∈ groups, ∃ j, s.runState.Settled g.value j)
    (hok : components schemas d position groups s = .ok () s') :
    Composed schemas (withNames d position groups) s.runState s'.runState := by
  induction groups generalizing position s with
  | nil =>
    cases hok
    exact .nil hs
  | cons g rest ih =>
    obtain ⟨hg, hrest⟩ := List.forall_mem_cons.mp hgroups
    obtain ⟨_, s₁, hfirst, hok⟩ := Hook.exists_of_bind_ok hok
    have hadded := component_ok hs ho hg hfirst
    rw [withNames_cons]
    refine .cons hadded (ih hadded.advances.live (hadded.advances.owns _ ho) (fun g hg => ?_) hok)
    exact (hrest g hg).imp fun _ hj => hj.advances hadded.advances

end Components

section Outcome

variable {h : Heap} {names : List String} {kept : List (List String × Json)} {sites : List SchemaSite}

def componentPath (names : List String) (position : Nat) : List String :=
  ["components", "schemas", SchemaDedup.name { names } position]

/-- What a finished run has delivered: the copies, references in place of the schemas, and a component for
each of their groups. -/
structure Outcome (names : List String) (kept : List (List String × Json)) (sites : List SchemaSite)
    (items : List SchemaGroup) (s : RunState) : Prop where
  live : s.Live
  delivered : ∀ x ∈ kept, s.Delivered x.1 x.2
  represents : List.Forall₂ (Represents s) sites items
  references : ∀ x ∈ sites, ∃ i, (texts (collect items))[i]? = some x.schema.render ∧
    s.Delivered x.reference (.string (referenceText names i))
  mapped : ∀ i g, (collect items)[i]? = some g → Mapped s (componentPath names i) g
  components : ∀ i g, (collect items)[i]? = some g → ∀ j, s.Settled g.value j →
    s.Delivered (componentPath names i) j
  apart : ∀ i < (collect items).length, ∀ k < (collect items).length,
    SchemaDedup.name { names } i = SchemaDedup.name { names } k → i = k
  only : ∀ n v, s.workspace.heap.follow? s.run.root.tree (["components", "schemas", n].map .key) = some v →
    ∃ i < (collect items).length, n = SchemaDedup.name { names } i

/-- Equal texts are found at the sites that they represent. -/
theorem map_first_filter {s : RunState} {items : List SchemaGroup}
    (hall : List.Forall₂ (Represents s) sites items) (text : String) :
    (items.filter fun a => a.canonical = text).map (·.first) =
      (sites.filter fun x => x.schema.render = text).map (·.pointer) := by
  induction hall with
  | nil => rfl
  | @cons x a sites items hx _ ih =>
    by_cases htext : x.schema.render = text
    · rw [List.filter_cons_of_pos (by simpa [hx.canonical] using htext),
        List.filter_cons_of_pos (by simpa using htext), List.map_cons, List.map_cons, ih, hx.first]
    · rw [List.filter_cons_of_neg (by simpa [hx.canonical] using htext),
        List.filter_cons_of_neg (by simpa using htext), ih]

/-- A group tells of the first site with its text, and of the sites behind it that have the same text. -/
structure Tells (s : RunState) (g : SchemaGroup) (before : List SchemaSite) (x : SchemaSite)
    (after : List SchemaSite) : Prop where
  first : ∀ b ∈ before, b.schema.render ≠ x.schema.render
  represents : Represents s x { g with folded := [] }
  folded : g.folded = (after.filter fun y => y.schema.render = x.schema.render).map (·.pointer)

/-- Every group tells of sites. -/
theorem exists_tells_of_mem_collect {s : RunState} {items : List SchemaGroup}
    (hall : List.Forall₂ (Represents s) sites items) (hg : g ∈ collect items) :
    ∃ before x after, sites = before ++ x :: after ∧ Tells s g before x after := by
  obtain ⟨earlier, item, later, rfl, hfirst, rfl⟩ := stands_of_mem_collect hg
  have hearlier := List.forall₂_take_append sites earlier (item :: later) hall
  have hrest := List.forall₂_drop_append sites earlier (item :: later) hall
  obtain ⟨x, after, hx, hlater, hdrop⟩ := List.forall₂_cons_right_iff.mp hrest
  refine ⟨_, x, after, by rw [← hdrop, List.take_append_drop], fun b hb heq => ?_, ?_, ?_⟩
  · obtain ⟨a, ha, hrepresents⟩ := exists_of_mem_left hearlier hb
    exact hfirst a ha (by rw [hrepresents.canonical, hx.canonical, heq])
  · exact ⟨hx.canonical, hx.source, hx.first, rfl, hx.value⟩
  · rw [hx.folded, hx.canonical, List.nil_append]
    exact map_first_filter hlater _

/-- Every group has a value. -/
theorem exists_settled_of_mem_collect {s : RunState} {items : List SchemaGroup}
    (hall : List.Forall₂ (Represents s) sites items) (hg : g ∈ collect items) : ∃ j, s.Settled g.value j := by
  obtain ⟨_, x, _, _, htells⟩ := exists_tells_of_mem_collect hall hg
  exact ⟨x.schema, htells.represents.value⟩

/-- What stands below the container of a proxy is what the container has. -/
theorem memberAt_of_follow? {s : RunState} {p : Proxy} (hs : s.Live) (ho : s.Owns p) {n : String} {v : Tree}
    (hv : s.workspace.heap.follow? s.run.root.tree ((p.location.tokens ++ [n]).map .key) = some v) :
    s.memberAt p.backing n = some v := by
  rw [List.map_append, Heap.follow?_append, hs.sound.placed.follow?_eq ho.1, Option.bind_some] at hv
  obtain ⟨u, hu, hv⟩ := Option.bind_eq_some_iff.mp hv
  cases hv
  exact hu

/-- Once the groups have got their components, everything is delivered. -/
theorem Folding.outcome {r r' : RunState} (hf : Folding h names kept sites s) (hs : s.runState.Advances r)
    (ho : r.Owns schemas) (hlocation : schemas.location.tokens = ["components", "schemas"])
    (hempty : ∀ n, r.memberAt schemas.backing n = none)
    (hcomposed : Composed schemas (withNames s.transform 0 s.transform.groups) r r') :
    ∃ items, Outcome names kept sites items r' := by
  obtain ⟨items, hgroups, hall⟩ := hf.groups
  rw [hgroups] at hcomposed
  have hadvances := hs.trans hcomposed.advances
  have hget : ∀ i, (withNames s.transform 0 (collect items))[i]? =
      (collect items)[i]?.map fun g => (SchemaDedup.name { names } i, g) := by
    intro i
    rw [getElem?_withNames, Nat.zero_add, name_eq hf.names_eq]
  have hmem : ∀ i g, (collect items)[i]? = some g →
      (SchemaDedup.name { names } i, g) ∈ withNames s.transform 0 (collect items) := fun i g hi =>
    List.mem_of_getElem? ((hget i).trans (congrArg (Option.map _) hi))
  have hname : ∀ i < (collect items).length,
      ((withNames s.transform 0 (collect items)).map Prod.fst)[i]? = some (SchemaDedup.name { names } i) := by
    intro i hi
    rw [List.getElem?_map, hget, List.getElem?_eq_getElem hi]
    rfl
  have hpath : ∀ i, schemas.location.tokens ++ [SchemaDedup.name { names } i] = componentPath names i := by
    intro i
    rw [hlocation]
    rfl
  refine ⟨items, hadvances.live, fun x hx => (hf.delivered x hx).advances hadvances,
    hall.imp fun _ _ hx => hx.advances hadvances, fun x hx => ?_, fun i g hi => ?_, fun i g hi j hj => ?_,
    fun i hi k hk heq => ?_, fun n v hv => ?_⟩
  · obtain ⟨i, hi, hd⟩ := hf.references x hx
    exact ⟨i, hgroups ▸ hi, hd.advances hadvances⟩
  · exact hpath i ▸ hcomposed.mapped _ (hmem i g hi)
  · -- a group has its value before it gets its component
    obtain ⟨j', hj'⟩ := exists_settled_of_mem_collect hall (List.mem_of_getElem? hi)
    have heq : j = j' := hj.unfolds.unique (hj'.advances hadvances).unfolds
    exact hpath i ▸ hcomposed.delivered _ (hmem i g hi) j (heq ▸ hj'.advances hs)
  · refine (List.getElem?_inj (List.getElem?_eq_some_iff.mp (hname i hi)).1 hcomposed.apart).mp ?_
    rw [hname i hi, hname k hk, heq]
  · rw [show ["components", "schemas", n] = schemas.location.tokens ++ [n] by rw [hlocation]; rfl] at hv
    have hmember := memberAt_of_follow? hadvances.live (hcomposed.advances.owns _ ho) hv
    rcases hcomposed.only n (by rw [hmember]; rfl) with hbefore | hn
    · rw [hempty n] at hbefore
      cases hbefore
    · obtain ⟨x, hx, rfl⟩ := List.mem_map.mp hn
      obtain ⟨i, hi⟩ := List.mem_iff_getElem?.mp hx
      rw [hget, Option.map_eq_some_iff] at hi
      obtain ⟨g, hg, rfl⟩ := hi
      exact ⟨i, (List.getElem?_eq_some_iff.mp hg).1, rfl⟩

/-- At the end of a run the groups get their components. -/
theorem Folding.conclude (hf : Folding h names kept sites s)
    (hok : (SchemaDedup.transform (σ := σ)).conclude s = .ok () s') :
    ∃ items, Outcome names kept sites items s'.runState := by
  rw [SchemaDedup.transform] at hok
  simp only at hok
  rw [get_bind] at hok
  obtain ⟨place, _, hplace, hok⟩ := Hook.exists_of_bind_ok hok
  obtain ⟨r₁, hr₁, rfl⟩ := Hook.exists_of_liftRun_ok hplace
  obtain ⟨schemas, _, hschemas, hok⟩ := Hook.exists_of_bind_ok hok
  obtain ⟨r₂, hr₂, rfl⟩ := Hook.exists_of_liftRun_ok hschemas
  obtain ⟨hacts₁, howns₁, hlocation₁, _⟩ := hf.live.allocateObject hf.owns hr₁
  obtain ⟨hacts₂, howns₂, hlocation₂, hempty⟩ := hacts₁.live.allocateObject howns₁ hr₂
  have hadvances : s.runState.Advances r₂ := hacts₁.toAdvances.trans hacts₂.toAdvances
  have hlocation : schemas.location.tokens = ["components", "schemas"] := by
    rw [hlocation₂, Pointer.tokens_append, hlocation₁, Pointer.tokens_append, hf.location,
      Segment.token_ofToken_eq, Segment.token_ofToken_eq]
    rfl
  rw [get_bind] at hok
  refine hf.outcome hadvances howns₂ hlocation hempty
    (components_ok (s := (s.withRun r₁).withRun r₂) hacts₂.live howns₂ (fun g hg => ?_) hok)
  obtain ⟨items, hgroups, hall⟩ := hf.groups
  have hg' : g ∈ collect items := hgroups ▸ hg
  obtain ⟨j, hj⟩ := exists_settled_of_mem_collect hall hg'
  exact ⟨j, hj.advances hadvances⟩

end Outcome

end Lineage.SchemaDedup
