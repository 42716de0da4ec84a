import Lineage.Proofs.Blame.Resolution
import Lineage.Proofs.Provenance.Ancestors
import Lineage.Proofs.Store.Documents

/-! Blame along a line of documents. Where a place in each document comes from the same place in the
next one, and from no other, its blame tree has one branch, which ends in the last document or at the
depth bound. -/

namespace Lineage

/-- A single branch through these documents, at one place in each, without locators. -/
inductive BlameTree.Line (p : Pointer) : List SourceId → BlameTree → Prop
  | leaf {id : SourceId} {q : Pointer} (hq : (q == p) = true) : Line p [id] (.leaf ⟨id, q, none⟩)
  | node {id : SourceId} {q : Pointer} {ids : List SourceId} {t : BlameTree}
      (hq : (q == p) = true) (ht : Line p ids t) : Line p (id :: ids) (.mk ⟨id, q, none⟩ [t])

namespace MemoryStore

/-- The place comes from the same place in document after document, and the last one is authored. -/
inductive Line (s : MemoryStore) (p : Pointer) : List SourceId → Prop
  | authored {id : SourceId} (h : ∀ q, s.behind ⟨id, q, none⟩ = .ok []) : Line s p [id]
  | copied {id next : SourceId} {ids : List SourceId}
      (h : ∀ q, (q == p) = true →
        ∃ q', (q' == p) = true ∧ s.behind ⟨id, q, none⟩ = .ok [⟨next, q', none⟩])
      (hrest : Line s p (next :: ids)) : Line s p (id :: next :: ids)

variable {s s' : MemoryStore} {p q : Pointer} {id : SourceId} {ids : List SourceId}

/-- Only what the store knows about the documents of the line matters. -/
theorem Line.congr (hl : s.Line p ids) (hs : ∀ id ∈ ids, s'.document? id = s.document? id) :
    s'.Line p ids := by
  induction hl with
  | authored h =>
    refine .authored fun q => ?_
    rw [← h q, behind, behind, hs _ List.mem_cons_self]
  | copied h _ ih =>
    refine .copied (fun q hq => ?_) (ih fun id hid => hs id (List.mem_cons_of_mem _ hid))
    obtain ⟨q', hq', hbehind⟩ := h q hq
    exact ⟨q', hq', by rw [← hbehind, behind, behind, hs _ List.mem_cons_self]⟩

/-- A resolution that is not stopped goes on to the only position behind. -/
theorem resolve_of_behind {p u : Position} {t : BlameTree} (hb : s.behind p = .ok [u])
    (lenient tolerant : Bool) {depth : Nat} {above : List Position}
    (hopen : ∀ a ∈ p :: above, (u.inheritAuxiliary p).samePlace a = false)
    (ht : BlameTree.resolve s.behind lenient depth lenient
      ((p :: above).map BlameTree.OpenPlace.ofPosition) (u.inheritAuxiliary p) = .ok t) :
    BlameTree.resolve s.behind lenient (depth + 1) tolerant
      (above.map BlameTree.OpenPlace.ofPosition) p = .ok (.mk p [t]) := by
  rcases BlameTree.resolve_cases s.behind lenient tolerant (depth + 1) above p with
    ⟨e, he, _⟩ | ⟨hend, _⟩ | ⟨d, ps, hd, hps, _, heq⟩
  · rw [hb] at he
    cases he
  · rcases hend with hnil | ⟨_, hzero⟩
    · rw [hb] at hnil
      cases hnil
    · cases hzero
  · cases hd
    rw [hb] at hps
    cases hps
    have hexplain : BlameTree.explain s.behind lenient depth (p :: above) (u.inheritAuxiliary p) =
        .ok t := by
      have hclosed : (p :: above).any ((u.inheritAuxiliary p).samePlace ·) = false := by
        rw [List.any_eq_false]
        intro a ha
        rw [hopen a ha]
        exact Bool.false_ne_true
      rw [BlameTree.explain, BlameTree.isOpen_map, hclosed]
      exact ht
    rw [heq, List.mapM_cons, hexplain]
    rfl

theorem resolve_of_end {p : Position} {ps : List Position} (hb : s.behind p = .ok ps)
    (lenient tolerant : Bool) {depth : Nat} (hend : ps = [] ∨ depth = 0) (above : List Position) :
    BlameTree.resolve s.behind lenient depth tolerant
      (above.map BlameTree.OpenPlace.ofPosition) p = .ok (.leaf p) := by
  rcases BlameTree.resolve_cases s.behind lenient tolerant depth above p with
    ⟨e, he, _⟩ | ⟨_, heq⟩ | ⟨d, ps', hd, hps, hne, _⟩
  · rw [hb] at he
    cases he
  · exact heq
  · rw [hb] at hps
    cases hps
    rcases hend with hnil | hzero
    · exact absurd hnil hne
    · rw [hd] at hzero
      cases hzero

/-- A resolution follows the line as far as the depth allows. -/
theorem Line.resolve (hl : s.Line p ids) {rest : List SourceId} (hids : ids = id :: rest)
    (hn : ids.Nodup) (hq : (q == p) = true) (lenient tolerant : Bool) (depth : Nat)
    {above : List Position} (habove : ∀ a ∈ above, a.source ∉ ids) :
    ∃ t, BlameTree.resolve s.behind lenient depth tolerant
        (above.map BlameTree.OpenPlace.ofPosition) ⟨id, q, none⟩ = .ok t ∧
      t.Line p (ids.take (depth + 1)) := by
  induction hl generalizing id rest q tolerant depth above with
  | authored h =>
    cases hids
    refine ⟨_, resolve_of_end (h q) lenient tolerant (.inl rfl) above, ?_⟩
    simpa using .leaf hq
  | @copied doc next ids h hrest ih =>
    cases hids
    obtain ⟨q', hq', hbehind⟩ := h q hq
    cases depth with
    | zero => exact ⟨_, resolve_of_end hbehind lenient tolerant (.inr rfl) above, .leaf hq⟩
    | succ depth =>
      obtain ⟨hid, hn'⟩ := List.nodup_cons.mp hn
      have habove' : ∀ a ∈ ⟨doc, q, none⟩ :: above, a.source ∉ next :: ids := by
        intro a ha
        rcases List.mem_cons.mp ha with rfl | ha
        · exact hid
        · exact fun hmem => habove a ha (List.mem_cons_of_mem _ hmem)
      obtain ⟨t, ht, hline⟩ := ih rfl hn' hq' lenient depth habove'
      refine ⟨_, resolve_of_behind hbehind lenient tolerant (fun a ha => ?_) ht, .node hq hline⟩
      rw [Bool.eq_false_iff]
      intro hsame
      have hsource : next = a.source := (Position.samePlace_iff.mp hsame).1
      exact habove' a ha (hsource ▸ List.mem_cons_self)

end MemoryStore

end Lineage
