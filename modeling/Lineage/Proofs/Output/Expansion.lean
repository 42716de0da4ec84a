import Lineage.Proofs.Output.Leaves
import Lineage.Proofs.Provenance.Longest
import Lineage.Proofs.Provenance.Spelling

/-! Writes of composite values with their leaves. The mappings of the leaves say in more detail what that
of the written place says already: a leaf is as far below the place as its origin is below the origin of
the place. So whoever asks where something comes from is told the same with the leaves as without them,
whether it is a leaf, lies above or below one, or is not there at all.
-/

namespace Lineage

namespace Mapping

/-- The mapping says of a place at or below that of `top` what `top` says of it. -/
def Elaborates (m top : Mapping) : Prop :=
  ∃ path, m.generated.tokens = top.generated.tokens ++ path ∧
    m.origin.tokens = top.origin.tokens ++ path ∧ m.source = top.source ∧ m.auxiliary = top.auxiliary

theorem elaborates_refl (m : Mapping) : m.Elaborates m :=
  ⟨[], (List.append_nil _).symm, (List.append_nil _).symm, rfl, rfl⟩

theorem elaborates_leafMapping (top : Mapping) (leaf : Node) :
    (Proxy.leafMapping top leaf).Elaborates top :=
  ⟨leaf.pointer.tokens, Pointer.tokens_join _ _, Pointer.tokens_join _ _, rfl, rfl⟩

end Mapping

variable {ms shorter : List Mapping} {top : Mapping} {q : Pointer}

/-- At and below the place there is one position, and elaborations agree on it. -/
theorem positionsBehind_of_elaborates
    (hd : ms.Pairwise fun m n => m.generated.tokens ≠ n.generated.tokens)
    (hms : ∀ m ∈ ms, m.Elaborates top) (htop : top ∈ ms) {rest : List String}
    (hrest : q.tokens = top.generated.tokens ++ rest) :
    ∃ u, positionsBehind ms q = [u] ∧ u.source = top.source ∧ u.auxiliary = top.auxiliary ∧
      u.pointer.tokens = top.origin.tokens ++ rest := by
  obtain ⟨u, hu⟩ := exists_positionsBehind_eq hd htop (hrest ▸ List.prefix_append _ _)
  have hmem : u ∈ positionsBehind ms q := by
    rw [hu]
    exact List.mem_singleton_self u
  obtain ⟨m, hm, below, hbelow, hsource, hauxiliary, hpointer⟩ := exists_of_mem_positionsBehind hmem
  obtain ⟨path, hgenerated, horigin, hmsource, hmauxiliary⟩ := hms m hm
  rw [hgenerated, hrest, List.append_assoc, List.append_cancel_left_eq] at hbelow
  refine ⟨u, hu, hsource.trans hmsource, hauxiliary.trans hmauxiliary, ?_⟩
  rw [hpointer, horigin, List.append_assoc, hbelow]

/-- Elaborations of a mapping may take its place, behind mappings of other places. -/
theorem positionsBehind_elaborated
    (hd : ms.Pairwise fun m n => m.generated.tokens ≠ n.generated.tokens)
    (hms : ∀ m ∈ ms, m.Elaborates top) (htop : top ∈ ms)
    (hshorter : ∀ m ∈ shorter, ¬top.generated.tokens <+: m.generated.tokens) (q : Pointer) :
    List.Forall₂ Same (positionsBehind (shorter ++ ms) q) (positionsBehind (shorter ++ [top]) q) := by
  have helaborates : ∀ m ∈ [top], m.Elaborates top := fun m hm =>
    List.eq_of_mem_singleton hm ▸ top.elaborates_refl
  by_cases hpre : top.generated.tokens <+: q.tokens
  · have hlt : ∀ m ∈ shorter, m.generated.tokens <+: q.tokens →
        m.generated.length < top.generated.length := by
      intro m hm hmpre
      rw [← Pointer.length_tokens, ← Pointer.length_tokens]
      exact Nat.lt_of_not_le fun hle => hshorter m hm (List.prefix_of_prefix_length_le hpre hmpre hle)
    obtain ⟨rest, hrest⟩ := hpre
    have hpre : top.generated.tokens <+: q.tokens := ⟨rest, hrest⟩
    obtain ⟨u, hu, husource, huauxiliary, hupointer⟩ :=
      positionsBehind_of_elaborates hd hms htop hrest.symm
    obtain ⟨v, hv, hvsource, hvauxiliary, hvpointer⟩ :=
      positionsBehind_of_elaborates (List.pairwise_singleton _ top) helaborates
        (List.mem_singleton_self top) hrest.symm
    rw [positionsBehind_append_of_shorter htop hpre hlt,
      positionsBehind_append_of_shorter (List.mem_singleton_self top) hpre hlt, hu, hv]
    refine .cons (Position.same_iff.mpr ⟨husource.trans hvsource.symm, ?_, ?_⟩) .nil
    · exact Pointer.same_iff.mpr (hupointer.trans hvpointer.symm)
    · exact huauxiliary.trans hvauxiliary.symm
  · have hoff : ∀ {more : List Mapping}, (∀ m ∈ more, m.Elaborates top) →
        positionsBehind (shorter ++ more) q = positionsBehind shorter q := by
      refine fun hmore => positionsBehind_append _ fun m hm hmpre => hpre ?_
      obtain ⟨path, hgenerated, _⟩ := hmore m hm
      exact (List.prefix_append _ path).trans (hgenerated ▸ hmpre)
    rw [hoff hms, hoff helaborates]
    exact List.forall₂_same.mpr fun u _ => u.beq_refl

namespace Proxy

variable {p : Proxy} {key : Segment} {write : TaggedWrite} {w w' : Workspace}

theorem elaborates_topMapping {origin : Pointer} {h : Heap} {m : Mapping}
    (hm : m ∈ p.mappingsOf key write origin h) : m.Elaborates (p.topMapping key write origin) := by
  rcases p.mem_mappingsOf key write origin h hm with rfl | ⟨_, _, _, leaf, _, rfl⟩
  · exact Mapping.elaborates_refl _
  · exact Mapping.elaborates_leafMapping _ leaf

/-- A successful write names its origin, and the sink has its mappings after those it had. -/
theorem exists_mappingsOf_of_put (hok : p.put key (.tagged write) w = .ok () w') :
    ∃ origin, write.origin = some origin ∧ w'.tableEntries p.sink.table =
      w.tableEntries p.sink.table ++ p.mappingsOf key write origin w'.heap := by
  rcases p.put_cases key (.tagged write) w with
    ⟨e, he⟩ | ⟨write', origin, c, c', heq, horigin, hopen, _, _, hput⟩
  · rw [he] at hok
    cases hok
  · cases heq
    rw [hput] at hok
    cases hok
    obtain ⟨t, ht⟩ := Workspace.exists_table_of_accepts hopen
    exact ⟨origin, horigin, Workspace.tableEntries_recordAll ht _⟩

/-- A value that is written with its leaves is mapped as a whole, and then each childless node below it is
mapped in the order of a traversal. In front of these mappings there may be any of places that are not at
or below the written one: every pointer has the positions that it has with the first of them alone. -/
theorem expansion_refines (hrecurse : write.recurse = true) (hvalue : write.value.isComposite = true)
    (hok : p.put key (.tagged write) w = .ok () w') :
    ∃ origin, write.origin = some origin ∧
      let top : Mapping :=
        { generated := p.location.append key, origin, source := write.source.getD p.source,
          auxiliary := write.auxiliary, recurse := true }
      let expanded : List Mapping :=
        top :: ((w'.heap.descendants write.value).filter w'.heap.isChildless).map fun leaf =>
          { generated := (p.location.append key).join leaf.pointer, origin := origin.join leaf.pointer,
            source := write.source.getD p.source, auxiliary := write.auxiliary, recurse := false }
      w'.tableEntries p.sink.table = w.tableEntries p.sink.table ++ expanded ∧
      ∀ shorter : List Mapping,
        (∀ m ∈ shorter, ¬top.generated.tokens <+: m.generated.tokens) → ∀ q,
        List.Forall₂ Same (positionsBehind (shorter ++ expanded) q)
          (positionsBehind (shorter ++ [top]) q) := by
  obtain ⟨origin, horigin, hentries⟩ := exists_mappingsOf_of_put hok
  refine ⟨origin, horigin, ?_⟩
  intro top expanded
  have htop : p.topMapping key write origin = top := by rw [topMapping, hrecurse]
  have hexpanded : p.mappingsOf key write origin w'.heap = expanded := by
    rw [mappingsOf, hrecurse, hvalue, w'.heap.leaves_eq, htop]
    rfl
  refine ⟨hexpanded ▸ hentries, fun shorter hshorter q => ?_⟩
  have hd := p.pairwise_mappingsOf key write origin w'.heap
  have hmem := p.topMapping_mem_mappingsOf key write origin w'.heap
  rw [hexpanded] at hd hmem
  rw [htop] at hmem
  refine positionsBehind_elaborated hd (fun m hm => ?_) hmem hshorter q
  exact htop ▸ elaborates_topMapping (hexpanded ▸ hm)

/-- A list with an item, an object that has this list twice and itself, and an empty output. -/
def entangled : Workspace :=
  { heap := ⟨#[.array [.null],
      .object (.ofList [("a", .container 0), ("b", .container 0), ("self", .container 1)]), .emptyObject]⟩,
    tables := #[{ entries := [{ generated := .root, origin := .root, source := ⟨"whole"⟩ }] }] }

def entangledOutput : Proxy := { backing := 2, location := .root, source := ⟨"d"⟩, sink := { table := 0 } }

def entangledWrite : TaggedWrite := { value := .container 1, origin := some ⟨[.key "o"]⟩, recurse := true }

/-- The list is opened once and the object not again, and what lies below its second place is explained
through the mapping of that place as it is through that of the object. -/
theorem expansion_refines_entangled :
    let put := entangledOutput.put (.key "k") (.tagged entangledWrite) entangled
    let top : Mapping :=
      { generated := ⟨[.key "k"]⟩, origin := ⟨[.key "o"]⟩, source := ⟨"d"⟩, recurse := true }
    ((after put).tableEntries 0).map (·.generated.tokens) =
      [[], ["k"], ["k", "a", "0"], ["k", "b"], ["k", "self"]] ∧
    List.Forall₂ Same
      (positionsBehind ((after put).tableEntries 0) ⟨[.key "k", .key "b", .index 0]⟩)
      (positionsBehind (entangled.tableEntries 0 ++ [top]) ⟨[.key "k", .key "b", .index 0]⟩) := by
  intro put top
  have hsucceeds : succeeds put := by decide +kernel
  obtain ⟨_, hok⟩ := eq_ok_of_succeeds hsucceeds
  obtain ⟨origin, horigin, hentries, hbehind⟩ := expansion_refines rfl rfl hok
  cases horigin
  have hentries : (after put).tableEntries 0 = entangled.tableEntries 0 ++ _ := hentries
  refine ⟨by decide +kernel, ?_⟩
  rw [hentries]
  exact hbehind (entangled.tableEntries 0) (by decide +kernel) _

end Proxy

end Lineage
