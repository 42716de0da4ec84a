import Lineage.Proofs.Blame.Leaves
import Lineage.Proofs.Blame.Lines
import Lineage.Proofs.Provenance.Longest

/-! Documents that rest on authored ones. Where every mapping of a generated document comes from an
authored document, or from a place that is mapped in a document generated before, blame descends from
document to document and ends in authored ones. Roots are not mapped. Where a write has the root of a
generated document as its origin, blame may end at this root, or below it at a place that is not mapped
either. -/

namespace Lineage

namespace MemoryStore

/-- The document is authored, or it is one of these. -/
structure Among (s : MemoryStore) (docs : List SourceId) (id : SourceId) : Prop where
  contains : s.contains id = true
  mem : s.isGenerated id = true → id ∈ docs

/-- The place is in an authored document, or it is mapped, there or above. -/
def Accounts (s : MemoryStore) (id : SourceId) (path : List String) : Prop :=
  s.isGenerated id = true → ∃ ms, s.mappings id = some ms ∧ ∃ m ∈ ms, m.generated.tokens <+: path

/-- The root of the document is the origin of one of the mappings, and `path` lies below what this maps
as `rest` lies below the root. -/
def QuotesRoot (ms : List Mapping) (id : SourceId) (path rest : List String) : Prop :=
  ∃ m ∈ ms, m.source = id ∧ m.origin.isRoot = true ∧ path = m.generated.tokens ++ rest

/-- The mapping originates in an authored document or in one of these: at a place that is accounted for,
or below the root of that document because this is the origin of a write. -/
structure Sourced (s : MemoryStore) (docs : List SourceId) (ms : List Mapping) (m : Mapping) :
    Prop where
  among : s.Among docs m.source
  origin : s.Accounts m.source m.origin.tokens ∨
    QuotesRoot ms m.source m.generated.tokens m.origin.tokens

/-- Each of the documents has distinct mappings, which originate in those that follow. -/
inductive Grounds (s : MemoryStore) : List SourceId → Prop
  | nil : Grounds s []
  | cons {id : SourceId} {older : List SourceId} {ms : List Mapping} (hnew : id ∉ older)
      (hms : s.mappings id = some ms)
      (hdistinct : ms.Pairwise fun m n => m.generated.tokens ≠ n.generated.tokens)
      (horigins : ∀ m ∈ ms, s.Sourced older ms m) (hrest : Grounds s older) :
      Grounds s (id :: older)

variable {s s' : MemoryStore} {docs : List SourceId} {id : SourceId} {path path' : List String}
  {ms : List Mapping}

/-- What a place is accounted for by, everything below it is. -/
theorem Accounts.below (ha : s.Accounts id path) (hpre : path <+: path') : s.Accounts id path' := by
  intro hgenerated
  obtain ⟨ms, hms, m, hm, hmapped⟩ := ha hgenerated
  exact ⟨ms, hms, m, hm, hmapped.trans hpre⟩

theorem QuotesRoot.below {rest : List String} (hq : QuotesRoot ms id path rest)
    (more : List String) : QuotesRoot ms id (path ++ more) (rest ++ more) := by
  obtain ⟨m, hm, hsource, hroot, rfl⟩ := hq
  exact ⟨m, hm, hsource, hroot, List.append_assoc _ _ _⟩

/-- A document other than the first is among the others. -/
theorem Among.tail {first : SourceId} (ha : s.Among (first :: docs) id) (hne : id ≠ first) :
    s.Among docs id :=
  ⟨ha.contains, fun hgenerated => (List.mem_cons.mp (ha.mem hgenerated)).resolve_left hne⟩

/-- A place in one of these documents is no place in another generated document. -/
theorem Among.samePlace_eq_false {u a : Position} (hu : s.Among docs u.source)
    (hgenerated : s.isGenerated a.source = true) (hnot : a.source ∉ docs) :
    u.samePlace a = false := by
  rw [Bool.eq_false_iff]
  intro hsame
  have hsource : u.source = a.source := (Position.samePlace_iff.mp hsame).1
  rw [← hsource] at hgenerated hnot
  exact hnot (hu.mem hgenerated)

/-- Mappings stay sourced in a store that knows the same about the documents of this one. -/
theorem Sourced.congr (hs : ∀ id, s.contains id = true → s'.document? id = s.document? id)
    {m : Mapping} (hm : s.Sourced docs ms m) : s'.Sourced docs ms m := by
  have hsame := hs m.source hm.among.contains
  have hmappings : s'.mappings m.source = s.mappings m.source := by rw [mappings, mappings, hsame]
  have hgenerated : s'.isGenerated m.source = s.isGenerated m.source := by
    rw [isGenerated, isGenerated, hmappings]
  refine ⟨⟨?_, fun hg => hm.among.mem (hgenerated ▸ hg)⟩, hm.origin.imp_left fun ha hg => ?_⟩
  · obtain ⟨d, hd⟩ := contains_iff.mp hm.among.contains
    exact contains_iff.mpr ⟨d, hsame.trans hd⟩
  · rw [hmappings]
    exact ha (hgenerated ▸ hg)

theorem Grounds.congr (hs : ∀ id, s.contains id = true → s'.document? id = s.document? id)
    (hg : s.Grounds docs) : s'.Grounds docs := by
  induction hg with
  | nil => exact .nil
  | @cons id older ms hnew hms hdistinct horigins _ ih =>
    have hsame := hs id (contains_of_isGenerated (isGenerated_iff.mpr ⟨ms, hms⟩))
    have hms' : s'.mappings id = some ms := by
      rw [← hms, mappings, mappings, hsame]
    exact .cons hnew hms' hdistinct (fun m hm => (horigins m hm).congr hs) ih

/-- The position goes back to the other one because a write has the root of the other's document as its
origin. -/
def BehindRoot (s : MemoryStore) (q l : Position) : Prop :=
  ∃ ms, s.mappings q.source = some ms ∧ QuotesRoot ms l.source q.pointer.tokens l.pointer.tokens

/-- How a branch of the tree ends below the nodes `base`. It does not end where a place of a generated
document is accounted for. Where it is not, the tree has no other node, or the one above goes back to it
because of its root. -/
structure Ends (s : MemoryStore) (base : List Position) (t : BlameTree) (l : Position) : Prop where
  contains : s.contains l.source = true
  authored : s.Accounts l.source l.pointer.tokens → s.isGenerated l.source = false
  reached : s.Accounts l.source l.pointer.tokens ∨ t = .leaf l ∨
    ∃ q above, BlameTree.Has base t (q :: above) (.leaf l) ∧ s.BehindRoot q l

/-- A branch ends below a node as it does in the tree of the only position behind it. -/
theorem Ends.under {base : List Position} {p l : Position} {t : BlameTree}
    (he : s.Ends (p :: base) t l)
    (hsourced : t = .leaf l → s.Accounts l.source l.pointer.tokens ∨ s.BehindRoot p l) :
    s.Ends base (.mk p [t]) l := by
  have hchild {above : List Position} {c : BlameTree} (h : BlameTree.Has (p :: base) t above c) :
      BlameTree.Has base (.mk p [t]) above c := h.under List.mem_cons_self
  refine ⟨he.contains, he.authored, ?_⟩
  rcases he.reached with ha | rfl | ⟨q, above, hq, hroot⟩
  · exact .inl ha
  · exact (hsourced rfl).imp_right fun hroot => .inr ⟨p, base, hchild .root, hroot⟩
  · exact .inr (.inr ⟨q, above, hchild hq, hroot⟩)

/-- A resolution with `depth` more stages gives a tree of the position, and its branches end so. -/
def Resolves (s : MemoryStore) (lenient tolerant : Bool) (depth : Nat) (above : List Position)
    (p : Position) : Prop :=
  ∃ t, BlameTree.resolve s.behind lenient depth tolerant
    (above.map BlameTree.OpenPlace.ofPosition) p = .ok t ∧ t.node = p ∧
      ∀ l, t.Leaf l → s.Ends above t l

section Resolves

variable {p u : Position} {lenient tolerant : Bool} {depth : Nat} {above : List Position}

theorem resolves_of_end (hend : s.behind p = .ok []) (hc : s.contains p.source = true)
    (ha : s.Accounts p.source p.pointer.tokens → s.isGenerated p.source = false) :
    s.Resolves lenient tolerant depth above p := by
  refine ⟨_, resolve_of_end hend lenient tolerant (.inl rfl) above, rfl, fun l hl => ?_⟩
  obtain rfl := (BlameTree.leaf_iff_of_isLeaf rfl).mp hl
  exact ⟨hc, ha, .inr (.inl rfl)⟩

theorem Resolves.of_behind
    (hu : s.Resolves lenient lenient depth (p :: above) (u.inheritAuxiliary p))
    (hbehind : s.behind p = .ok [u])
    (hopen : ∀ a ∈ p :: above, (u.inheritAuxiliary p).samePlace a = false)
    (hsourced : s.Accounts u.source u.pointer.tokens ∨ s.BehindRoot p u) :
    s.Resolves lenient tolerant (depth + 1) above p := by
  obtain ⟨t, ht, hnode, hends⟩ := hu
  refine ⟨_, resolve_of_behind hbehind lenient tolerant hopen ht, rfl, fun l hl => ?_⟩
  rcases hl.cases_mk with ⟨hnil, _⟩ | ⟨c, hc, hbelow⟩
  · cases hnil
  · obtain rfl := List.mem_singleton.mp hc
    refine (hends l hbelow).under fun hleaf => ?_
    subst hleaf
    obtain rfl : l = u.inheritAuxiliary p := hnode
    exact hsourced

end Resolves

/-- A single position lies behind one that is mapped, and it has its source in its turn. -/
theorem exists_behind_eq {p : Position} (hms : s.mappings p.source = some ms)
    (hdistinct : ms.Pairwise fun m n => m.generated.tokens ≠ n.generated.tokens)
    (horigins : ∀ m ∈ ms, s.Sourced docs ms m) {m : Mapping} (hm : m ∈ ms)
    (hpre : m.generated.tokens <+: p.pointer.tokens) :
    ∃ u, s.behind p = .ok [u] ∧ s.Among docs u.source ∧
      (s.Accounts u.source u.pointer.tokens ∨ s.BehindRoot p u) := by
  obtain ⟨u, hu⟩ := exists_positionsBehind_eq hdistinct hm hpre
  have hmem : u ∈ positionsBehind ms p.pointer := by simp [hu]
  obtain ⟨n, hn, rest, hgenerated, hsource, _, hpointer⟩ := exists_of_mem_positionsBehind hmem
  obtain ⟨hamong, horigin⟩ := horigins n hn
  refine ⟨u, ?_, ?_, ?_⟩
  · rw [behind_of_mappings hms, hu]
  · rwa [hsource]
  · rw [BehindRoot, hsource, hpointer, hgenerated]
    refine horigin.imp (fun ha => ha.below (List.prefix_append _ _)) fun hq => ?_
    exact ⟨ms, hms, hq.below rest⟩

/-- A resolution with a stage for every document ends in authored documents, or because of a root. The
induction is on the documents: the position behind one of the first document is in one of the others, so
it is none of the positions that led there. -/
theorem Grounds.resolves (hg : s.Grounds docs) {p : Position} (hp : s.Among docs p.source)
    (lenient tolerant : Bool) {depth : Nat} (hdepth : docs.length ≤ depth) {above : List Position}
    (habove : ∀ a ∈ above, s.isGenerated a.source = true ∧ a.source ∉ docs) :
    s.Resolves lenient tolerant depth above p := by
  induction hg generalizing p depth above tolerant with
  | nil =>
    have hauthored : s.isGenerated p.source = false := by
      rw [Bool.eq_false_iff]
      exact fun hgenerated => absurd (hp.mem hgenerated) List.not_mem_nil
    exact resolves_of_end (behind_of_authored hp.contains hauthored) hp.contains fun _ => hauthored
  | @cons id older ms hnew hms hdistinct horigins _ ih =>
    rw [List.length_cons] at hdepth
    have holder : ∀ a ∈ above, s.isGenerated a.source = true ∧ a.source ∉ older := by
      intro a ha
      obtain ⟨hgenerated, hnot⟩ := habove a ha
      exact ⟨hgenerated, fun hmem => hnot (List.mem_cons_of_mem _ hmem)⟩
    by_cases hid : p.source = id
    · subst hid
      have hgenerated : s.isGenerated p.source = true := isGenerated_iff.mpr ⟨ms, hms⟩
      by_cases hmapped : ∃ m ∈ ms, m.generated.tokens <+: p.pointer.tokens
      · obtain ⟨m, hm, hpre⟩ := hmapped
        obtain ⟨u, hbehind, hu, hsourced⟩ := exists_behind_eq hms hdistinct horigins hm hpre
        have habove' : ∀ a ∈ p :: above, s.isGenerated a.source = true ∧ a.source ∉ older :=
          List.forall_mem_cons.mpr ⟨⟨hgenerated, hnew⟩, holder⟩
        have hopen : ∀ a ∈ p :: above, (u.inheritAuxiliary p).samePlace a = false := fun a ha =>
          Among.samePlace_eq_false (u := u.inheritAuxiliary p) hu (habove' a ha).1 (habove' a ha).2
        obtain ⟨d, rfl⟩ : ∃ d, depth = d + 1 := ⟨depth - 1, by omega⟩
        have hrest := ih (p := u.inheritAuxiliary p) hu lenient (show older.length ≤ d by omega) habove'
        exact hrest.of_behind hbehind hopen hsourced
      · -- the place is not mapped: nothing lies behind it
        have hend : s.behind p = .ok [] := by
          rw [behind_of_mappings hms, positionsBehind_eq_nil fun m hm hpre => hmapped ⟨m, hm, hpre⟩]
        refine resolves_of_end hend hp.contains fun ha => ?_
        obtain ⟨ms', hms', hm⟩ := ha hgenerated
        cases hms.symm.trans hms'
        exact absurd hm hmapped
    · exact ih (hp.tail hid) tolerant (by omega) holder

end MemoryStore

end Lineage
