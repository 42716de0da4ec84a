import Lineage.Proofs.Output.Leaves
import Lineage.Proofs.Run.Placement

/-! Mappings account for the output. Every member of a container of the run has its mapping, every
mapping speaks of such a member or of something below one, and no two speak of one place. What keeps
them apart is that mappings from leaves lie below places that the run will never write to: a place is
written once, and what was written there in one piece is not opened. -/

namespace Lineage

namespace RunState

/-- The mappings recorded so far. -/
def mappings (s : RunState) : List Mapping := s.workspace.tableEntries s.run.table

/-- A mapping of a member of a container of the run, or of something below a member that is not
itself a container of the run at its own place. -/
def SpeaksOfMember (s : RunState) (m : Mapping) : Prop :=
  ∃ j path name rest, s.AllocatedAt j path ∧ (s.memberAt j name).isSome ∧
    m.generated.tokens = path ++ name :: rest ∧
    (rest ≠ [] → ∀ i, ¬s.AllocatedAt i (path ++ [name]))

structure Accounted (s : RunState) : Prop where
  covers : ∀ j path name, s.AllocatedAt j path → (s.memberAt j name).isSome →
    ∃ m ∈ s.mappings, m.generated.tokens = path ++ [name]
  speaks : ∀ m ∈ s.mappings, s.SpeaksOfMember m
  resolves : ∀ m ∈ s.mappings, (s.workspace.heap.resolve? s.run.root.tree m.generated).isSome
  distinct : s.mappings.Pairwise fun m n => m.generated.tokens ≠ n.generated.tokens

variable {s s' : RunState}

/-- Where a container of the run has no member yet, the run has no container at or below the place
and no mapping speaks of it. -/
theorem Accounted.vacant (hs : s.Accounted) (hp : s.Placed) {j : ContainerId} {path : List String}
    {name : String} (hj : s.AllocatedAt j path) (hm : s.memberAt j name = none) :
    (∀ i rest, ¬s.AllocatedAt i (path ++ name :: rest)) ∧
      ∀ m ∈ s.mappings, ∀ rest, m.generated.tokens ≠ path ++ name :: rest := by
  have hfree : ∀ i rest, ¬s.AllocatedAt i (path ++ name :: rest) := by
    intro i rest hi
    obtain ⟨k, hk, hsome⟩ := hp.exists_above hi
    rw [hp.unique k j path hk hj, hm] at hsome
    cases hsome
  refine ⟨hfree, fun m hmem rest heq => ?_⟩
  obtain ⟨k, kpath, kname, krest, hk, hsome, htok, hclosed⟩ := hs.speaks m hmem
  rw [heq] at htok
  rcases List.append_eq_append_iff.mp htok with ⟨a, rfl, ha⟩ | ⟨a, rfl, ha⟩
  · cases a with
    | nil =>
      -- the mapping speaks of this very place, so it is taken
      rw [List.append_nil] at hk
      cases ha
      rw [hp.unique k j path hk hj, hm] at hsome
      cases hsome
    | cons x a =>
      -- it speaks of a member further down, of a container below the place
      cases ha
      exact hfree k a hk
  · cases a with
    | nil =>
      rw [List.append_nil] at hj
      cases ha
      rw [hp.unique k j kpath hk hj, hm] at hsome
      cases hsome
    | cons x a =>
      -- it lies below a place above this one, which is closed although the run has a container there
      cases ha
      rw [List.append_cons] at hj
      obtain ⟨i, hi⟩ := hp.exists_prefix hj
      exact hclosed (by simp) i hi

/-- Accounts stay right when new containers come in. -/
theorem Accounted.grows (hs : s.Accounted) (hp : s.Placed) (hrun : s'.run.registry = s.run.registry)
    (hroot : s'.run.root = s.run.root) (hmap : s'.mappings = s.mappings)
    (hg : s.workspace.heap.Grows s'.workspace.heap) : s'.Accounted := by
  have hat := allocatedAt_congr hrun
  have hmem : ∀ id path name, s.AllocatedAt id path → s'.memberAt id name = s.memberAt id name :=
    fun id path name ha => hg.member? (hp.lt_size id path ha) (.key name)
  refine ⟨?_, ?_, ?_, hmap ▸ hs.distinct⟩
  · intro j path name hj hsome
    rw [hat] at hj
    rw [hmap]
    exact hs.covers j path name hj (hmem j path name hj ▸ hsome)
  · intro m hm
    obtain ⟨j, path, name, rest, hj, hsome, htok, hclosed⟩ := hs.speaks m (hmap ▸ hm)
    refine ⟨j, path, name, rest, (hat j path).mpr hj, (hmem j path name hj).symm ▸ hsome, htok, ?_⟩
    exact fun hne i hi => hclosed hne i ((hat i _).mp hi)
  · intro m hm
    obtain ⟨t, ht⟩ := Option.isSome_iff_exists.mp (hs.resolves m (hmap ▸ hm))
    rw [hroot]
    exact Option.isSome_iff_exists.mpr ⟨t, hg.extends.follow? ht⟩

section Written

variable {p : Proxy} {key : Segment} {write : TaggedWrite} {origin : Pointer} {c c' : Container}

theorem extends_written (hacc : Accepts s p key write origin c c') :
    s.workspace.heap.Extends (s.written p key write origin c').workspace.heap :=
  Heap.extends_set hacc.backing hacc.add

theorem mappings_written (hsink : p.sink.table = s.run.table)
    (hacc : Accepts s p key write origin c c') :
    (s.written p key write origin c').mappings = s.mappings ++
      p.mappingsOf key write origin (s.written p key write origin c').workspace.heap := by
  have hentries := tableEntries_written hacc
  rwa [hsink] at hentries

theorem memberAt_written (hacc : Accepts s p key write origin c c') (id : ContainerId)
    (name : String) : (s.written p key write origin c').memberAt id name =
      if id = p.backing ∧ name = key.token then some write.value else s.memberAt id name :=
  Heap.member?_set hacc.backing hacc.add id (.key name)

theorem memberAt_eq_none_of_accepts (hacc : Accepts s p key write origin c c') :
    s.memberAt p.backing key.token = none := by
  rw [memberAt_token, Heap.member?_container hacc.backing]
  exact Container.member?_eq_none_of_add? hacc.add

theorem Placed.written (hs : s.Placed) (hacc : Accepts s p key write origin c c') :
    (s.written p key write origin c').Placed :=
  hs.extends rfl rfl (extends_written hacc) (Nat.le_of_eq (Heap.size_set _ _ _).symm)
    (hs.indexable.set hacc.backing hacc.add)

/-- An accepted write brings the mapping of the new member, and others below it. -/
theorem Accounted.written (hs : s.Accounted) (hp : s.Placed)
    (hat : s.AllocatedAt p.backing p.location.tokens) (hsink : p.sink.table = s.run.table)
    (hacc : Accepts s p key write origin c c') : (s.written p key write origin c').Accounted := by
  have hx := extends_written hacc
  have hmap := mappings_written hsink hacc
  have hmem := memberAt_written hacc
  have hp' := hp.written hacc
  obtain ⟨hfree, hsilent⟩ := hs.vacant hp hat (memberAt_eq_none_of_accepts hacc)
  refine ⟨?_, ?_, ?_, ?_⟩
  · intro j path name hj hsome
    rw [hmap]
    rw [hmem] at hsome
    split at hsome
    · rename_i hnew
      obtain ⟨rfl, rfl⟩ := hnew
      obtain rfl := hat.path_eq hj
      exact ⟨_, List.mem_append_right _ (p.topMapping_mem_mappingsOf key write origin _), by simp⟩
    · obtain ⟨m, hm, htok⟩ := hs.covers j path name hj hsome
      exact ⟨m, List.mem_append_left _ hm, htok⟩
  · intro m hm
    rw [hmap] at hm
    rcases List.mem_append.mp hm with hm | hm
    · obtain ⟨j, path, name, rest, hj, hsome, htok, hclosed⟩ := hs.speaks m hm
      refine ⟨j, path, name, rest, hj, ?_, htok, hclosed⟩
      obtain ⟨t, ht⟩ := Option.isSome_iff_exists.mp hsome
      rw [memberAt_extends hx ht]
      rfl
    · obtain ⟨rest, htok⟩ := p.exists_rest_of_mem_mappingsOf key write origin _ hm
      refine ⟨p.backing, p.location.tokens, key.token, rest, hat, ?_, htok, fun _ i => hfree i []⟩
      rw [hmem, if_pos ⟨rfl, rfl⟩]
      rfl
  · intro m hm
    rw [hmap] at hm
    rcases List.mem_append.mp hm with hm | hm
    · obtain ⟨t, ht⟩ := Option.isSome_iff_exists.mp (hs.resolves m hm)
      exact Option.isSome_iff_exists.mpr ⟨t, hx.follow? ht⟩
    · refine p.resolve?_of_mem_mappingsOf key write origin _ hp'.indexable (hp'.follow?_eq hat) ?_ hm
      have hnew := hmem p.backing key.token
      rwa [memberAt_token, if_pos ⟨rfl, rfl⟩] at hnew
  · rw [hmap, List.pairwise_append]
    refine ⟨hs.distinct, p.pairwise_mappingsOf key write origin _, fun m hm n hn heq => ?_⟩
    obtain ⟨rest, htok⟩ := p.exists_rest_of_mem_mappingsOf key write origin _ hn
    exact hsilent m hm rest (heq.trans htok)

end Written

/-- A container without members may be registered where no mapping speaks of anything below. -/
theorem Accounted.registered (hs : s.Accounted) {id : ContainerId} {path : List String}
    {q : Pointer} (hfree : s.run.registry.get? id = none) (hq : q.tokens = path)
    (hempty : ∀ name, s.memberAt id name = none)
    (hsilent : ∀ m ∈ s.mappings, ∀ rest, m.generated.tokens = path ++ rest → rest = []) :
    (s.registered id q).Accounted := by
  refine ⟨?_, ?_, hs.resolves, hs.distinct⟩
  · intro j p name hj hsome
    rw [allocatedAt_registered] at hj
    split at hj
    · subst j
      rw [show (s.registered id q).memberAt id name = none from hempty name] at hsome
      cases hsome
    · exact hs.covers j p name hj hsome
  · intro m hm
    obtain ⟨j, p, name, rest, hj, hsome, htok, hclosed⟩ := hs.speaks m hm
    refine ⟨j, p, name, rest, ?_, hsome, htok, fun hrest i hi => ?_⟩
    · rwa [allocatedAt_registered, if_neg (hj.ne hfree)]
    · rw [allocatedAt_registered] at hi
      split at hi
      · -- the new container stands above a place that the mapping speaks of
        refine hrest (hsilent m hm rest ?_)
        rw [htok, ← hq, hi, List.append_assoc, List.singleton_append]
      · exact hclosed hrest i hi

end RunState

end Lineage
