import Lineage.Proofs.Run.Explained
import Lineage.Proofs.Run.Frame
import Lineage.Proofs.Transform.Folding
import Lineage.Proofs.Tree.Closure

/-! Documents that are built from values. Each document gets a tree of its own, built behind those that were
built before, so that none of its containers stands at two places and all of them are there. -/

namespace Lineage

namespace Heap

variable {h h' : Heap} {c : Container} {t : Tree}

/-- A new container may be made of trees that exist. -/
theorem Closed.alloc_of_has (hc : h.Closed) (hentries : ∀ e ∈ c.entries, h.Has e.2) :
    (h.alloc c).2.Closed ∧ (h.alloc c).2.Has (.container h.size) := by
  rw [alloc_eq_append]
  have hsize : (h.append [c]).size = h.size + 1 := h.size_append [c]
  refine ⟨closed_append hc fun d hd e he => ?_, ?_⟩
  · rw [List.mem_singleton.mp hd] at he
    exact (hentries e he).mono (by omega)
  · rintro _ ⟨⟩
    rw [hsize]
    exact Nat.lt_succ_self _

mutual

/-- What is built from a value exists, with everything it names. -/
theorem addJson_closed (h : Heap) (v : Json) (hc : h.Closed) :
    (h.addJson v).2.Closed ∧ (h.addJson v).2.Has (h.addJson v).1 :=
  match v with
  | .null => ⟨hc, fun _ hid => nomatch hid⟩
  | .bool _ => ⟨hc, fun _ hid => nomatch hid⟩
  | .number _ => ⟨hc, fun _ hid => nomatch hid⟩
  | .string _ => ⟨hc, fun _ hid => nomatch hid⟩
  | .array items => by
    obtain ⟨hclosed, hhas⟩ := addJsonItems_closed h items hc
    refine hclosed.alloc_of_has fun e he => ?_
    obtain ⟨i, hi, _⟩ := Container.mem_indexed.mp he
    exact hhas e.2 (List.mem_of_getElem? hi)
  | .object members => by
    obtain ⟨hclosed, hhas⟩ := addJsonMembers_closed h members hc
    refine hclosed.alloc_of_has fun e he => ?_
    obtain ⟨m, hm, rfl⟩ := List.mem_map.mp he
    exact hhas m (OrderedMap.mem_of_get?_ofList (OrderedMap.find_of_mem (OrderedMap.nodup _) hm))

theorem addJsonItems_closed (h : Heap) (items : List Json) (hc : h.Closed) :
    (h.addJsonItems items).2.Closed ∧ ∀ t ∈ (h.addJsonItems items).1, (h.addJsonItems items).2.Has t :=
  match items with
  | [] => ⟨hc, fun _ ht => nomatch ht⟩
  | item :: rest => by
    obtain ⟨hclosed, hhas⟩ := addJson_closed h item hc
    obtain ⟨hclosed', hhas'⟩ := addJsonItems_closed (h.addJson item).2 rest hclosed
    obtain ⟨_, _, hall⟩ := addJsonItems_builds (h.addJson item).2 0 rest
    exact ⟨hclosed', List.forall_mem_cons.mpr ⟨hhas.mono hall.grows.1, hhas'⟩⟩

theorem addJsonMembers_closed (h : Heap) (members : List (String × Json)) (hc : h.Closed) :
    (h.addJsonMembers members).2.Closed ∧
      ∀ m ∈ (h.addJsonMembers members).1, (h.addJsonMembers members).2.Has m.2 :=
  match members with
  | [] => ⟨hc, fun _ hm => nomatch hm⟩
  | (_, value) :: rest => by
    obtain ⟨hclosed, hhas⟩ := addJson_closed h value hc
    obtain ⟨hclosed', hhas'⟩ := addJsonMembers_closed (h.addJson value).2 rest hclosed
    have hgrows := (addJsonMembers_builds (h.addJson value).2 rest).grows
    exact ⟨hclosed', List.forall_mem_cons.mpr ⟨hhas.mono hgrows.1, hhas'⟩⟩

end

end Heap

namespace SchemaDedup

/-- The document as a value. -/
def Input.json (d : Input) : Json := .object d.members

/-- Builds the documents one after the other. -/
def addInputs (h : Heap) : List Input → List (SourceId × Tree) × Heap
  | [] => ([], h)
  | d :: rest =>
    let (t, h) := h.addJson d.json
    let (ts, h) := addInputs h rest
    ((d.source, t) :: ts, h)

variable {h h' : Heap} {ds : List Input}

theorem addInputs_closed (hc : h.Closed) (ds : List Input) :
    (addInputs h ds).2.Closed ∧ h.Grows (addInputs h ds).2 := by
  induction ds generalizing h with
  | nil => exact ⟨hc, .refl h⟩
  | cons d rest ih =>
    obtain ⟨hclosed, hgrows⟩ := ih (h.addJson_closed d.json hc).1
    exact ⟨hclosed, (h.addJson_builds d.json).grows.trans hgrows⟩

/-- The trees are those of the documents. -/
theorem addInputs_reads (hc : h.Closed) (hdistinct : ∀ d ∈ ds, d.json.DistinctNames) :
    List.Forall₂ (fun x d => x.1 = d.source ∧ d.Reads (addInputs h ds).2 x.2) (addInputs h ds).1 ds := by
  induction ds generalizing h with
  | nil => exact .nil
  | cons d rest ih =>
    obtain ⟨hd, hrest⟩ := List.forall_mem_cons.mp hdistinct
    have hbuilds := h.addJson_builds d.json
    obtain ⟨hclosed, hhas⟩ := h.addJson_closed d.json hc
    have hgrows := (addInputs_closed hclosed rest).2
    refine .cons ⟨rfl, ?_⟩ (ih hclosed hrest)
    exact ⟨(hbuilds.unfolds hd).congr (hbuilds.within.same (Nat.le_refl _) hgrows),
      ⟨_, _, hbuilds.within.mono (Nat.le_refl _) hgrows⟩, hhas.mono hgrows.1⟩

theorem sources_addInputs (h : Heap) (ds : List Input) :
    (addInputs h ds).1.map Prod.fst = ds.map Input.source := by
  induction ds generalizing h with
  | nil => rfl
  | cons d rest ih => exact congrArg (d.source :: ·) (ih _)

/-- A new job that folds the schemas of the documents. -/
def job {σ : Type} (id : RunId) (names : List String) (ambient : σ) (w : Workspace) (ds : List Input) :
    JobState σ SchemaDedup :=
  Job.launch id (addInputs w.heap ds).1 { names } ambient { w with heap := (addInputs w.heap ds).2 }

/-- A new job has delivered nothing and has found no schema. -/
theorem folding_job {σ : Type} {w : Workspace} (hc : w.heap.Closed)
    (hindex : (addInputs w.heap ds).2.Indexable) (id : RunId) (names : List String) (ambient : σ) :
    Folding (addInputs w.heap ds).2 names [] [] (job id names ambient w ds).hookState := by
  have hsound := Run.sound_start id (addInputs w.heap ds).1 { w with heap := (addInputs w.heap ds).2 } hindex
  have hgrows := Run.grows_start id (addInputs w.heap ds).1 { w with heap := (addInputs w.heap ds).2 }
  refine ⟨⟨hsound.state, RunState.whole_start (addInputs_closed hc ds).1 id⟩,
    hsound.owns _ (List.mem_singleton.mpr rfl), rfl, ⟨hgrows, fun i hi => ?_⟩, rfl,
    (fun _ hx => nomatch hx), ⟨[], rfl, .nil⟩, fun _ hx => nomatch hx⟩
  rw [Option.eq_none_iff_forall_ne_some]
  intro p hp
  have hat := Run.allocatedAt_start id (addInputs w.heap ds).1 { w with heap := (addInputs w.heap ds).2 } i
  exact Nat.ne_of_lt hi ((hat p.tokens).mp ⟨p, hp, rfl⟩).1

/-- Documents with distinct names are processed as they are. -/
theorem inputs_job {σ : Type} {w : Workspace} (hids : (ds.map Input.source).Nodup) (id : RunId)
    (names : List String) (ambient : σ) :
    (job id names ambient w ds).hookState.run.inputs.entries = (addInputs w.heap ds).1 :=
  OrderedMap.entries_ofList_of_nodup (by rwa [sources_addInputs])

end SchemaDedup

end Lineage
