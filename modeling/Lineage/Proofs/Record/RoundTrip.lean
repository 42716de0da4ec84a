import Lineage.Proofs.Pointer.Text
import Lineage.Proofs.Provenance.Spelling
import Lineage.Record.Decode
import Lineage.Record.Encode

/-! Provenance records that are kept as JSON values and read back. Nothing is lost but the spelling of
segments, which a pointer no longer has once it is text, and what is read back is kept as the same value.
-/

namespace Lineage

open Decode

/-- The record can be read back from its encoding, as one that is the same and is encoded the same. -/
def Survives {α : Type} (encode : α → Json) (decode : Decoder α) (same : α → α → Prop) (a : α) : Prop :=
  ∃ b, decode (encode a) = .ok b ∧ same a b ∧ encode b = encode a

/-- A list survives if its elements do. -/
theorem survives_map {α : Type} {encode : α → Json} {decode : Decoder α} {same : α → α → Prop}
    {as : List α} (h : ∀ a ∈ as, Survives encode decode same a) :
    ∃ bs, (as.map encode).mapM decode = .ok bs ∧ List.Forall₂ same as bs ∧
      bs.map encode = as.map encode := by
  induction as with
  | nil => exact ⟨[], rfl, .nil, rfl⟩
  | cons a as ih =>
    obtain ⟨b, hread, hsame, hagain⟩ := h a List.mem_cons_self
    obtain ⟨bs, hreads, hsames, hagains⟩ := ih fun a' ha' => h a' (List.mem_cons_of_mem _ ha')
    refine ⟨b :: bs, ?_, .cons hsame hsames, congrArg₂ List.cons hagain hagains⟩
    rw [List.map_cons, List.mapM_cons, hread, hreads]
    rfl

/-- A field that can be read goes into the draft, and the others are read after it. -/
theorem Decode.record_cons {ρ : Type} {names : List String} {read : ρ → String → Decoder ρ} {d d' : ρ}
    {name : String} {json : Json} (h : read d name json = .ok d') (rest : List (String × Json)) :
    record names read d (.object ((name, json) :: rest)) = record names read d' (.object rest) := by
  simp only [record, List.foldlM_cons, h]
  rfl

theorem Decode.bind_ok {α β : Type} {r : Except DecodeError α} {a : α} (h : r = .ok a)
    (f : α → Except DecodeError β) : (r >>= f) = f a := by
  rw [h]
  rfl

namespace Pointer

theorem same_canonical (p : Pointer) : Same p p.canonical := by
  rw [same_iff, eq_comm]
  exact beq_iff.mp p.canonical_beq

theorem decode_toJson (p : Pointer) : pointer p.toJson = .ok p.canonical := by
  have htext : text p.toJson = .ok p.render := rfl
  rw [pointer, bind_ok htext, p.parse_render]

theorem toJson_canonical (p : Pointer) : p.canonical.toJson = p.toJson :=
  congrArg Json.string (render_eq_iff.mpr p.canonical_beq)

end Pointer

/-- A locator is read back, or there is none to read. -/
theorem Decode.readPositionField_auxiliary (names : List String) (s : SourceId) (p : Pointer)
    (auxiliary : Option String) :
    record names readPositionField ⟨some s, some p, none⟩ (.object (auxiliaryField auxiliary)) =
      .ok ⟨some s, some p, auxiliary⟩ := by
  cases auxiliary with
  | none => rfl
  | some text => rfl

theorem Position.survives (p : Position) : Survives toJson position Same p := by
  obtain ⟨s, q, auxiliary⟩ := p
  refine ⟨⟨s, q.canonical, auxiliary⟩, ?_, same_iff.mpr ⟨rfl, q.same_canonical, rfl⟩, ?_⟩
  · have hpointer : readPositionField ⟨some s, none, none⟩ "pointer" q.toJson =
        .ok ⟨some s, some q.canonical, none⟩ := bind_ok q.decode_toJson _
    have hread : record ["source_id", "pointer", "auxiliary"] readPositionField {}
        (toJson ⟨s, q, auxiliary⟩) = .ok ⟨some s, some q.canonical, auxiliary⟩ :=
      (record_cons rfl _).trans
        ((record_cons hpointer _).trans (readPositionField_auxiliary _ s q.canonical auxiliary))
    exact bind_ok hread _
  · simp only [toJson, q.toJson_canonical]

/-- What follows the pointers of a mapping is read back. -/
theorem Decode.readMappingField_auxiliary (names : List String) (m : Mapping) :
    record names readMappingField ⟨some m.generated, some m.origin, some m.source, none, false⟩
      (.object (auxiliaryField m.auxiliary ++ [("recurse", .bool m.recurse)])) =
      .ok ⟨some m.generated, some m.origin, some m.source, m.auxiliary, m.recurse⟩ := by
  cases m.auxiliary with
  | none => rfl
  | some text => rfl

theorem Mapping.survives (m : Mapping) : Survives toJson mapping Alike m := by
  -- the pointers stand first, and they are all that changes
  let n : Mapping := { m with generated := m.generated.canonical, origin := m.origin.canonical }
  refine ⟨n, ?_, ⟨m.generated.same_canonical, m.origin.same_canonical, rfl, rfl, rfl⟩, ?_⟩
  · have hgenerated : readMappingField {} "generated_pointer" m.generated.toJson =
        .ok ⟨some n.generated, none, none, none, false⟩ := bind_ok m.generated.decode_toJson _
    have horigin : readMappingField ⟨some n.generated, none, none, none, false⟩ "original_pointer"
        m.origin.toJson = .ok ⟨some n.generated, some n.origin, none, none, false⟩ :=
      bind_ok m.origin.decode_toJson _
    have hread : record ["generated_pointer", "original_pointer", "source_id", "auxiliary", "recurse"]
        readMappingField {} m.toJson =
        .ok ⟨some n.generated, some n.origin, some n.source, n.auxiliary, n.recurse⟩ :=
      (record_cons hgenerated _).trans ((record_cons horigin _).trans
        ((record_cons rfl _).trans (readMappingField_auxiliary _ n)))
    exact bind_ok hread _
  · simp only [toJson, n, Pointer.toJson_canonical]

theorem Number.word?_ofWord (w : UInt64) : (ofWord w).word? = some w := by
  have hlt := w.toNat_lt
  have hfits : (0 ≤ (w.toNat : Int) && (w.toNat : Int) < 0x10000000000000000) = true := by
    rw [Bool.and_eq_true, decide_eq_true_eq, decide_eq_true_eq]
    omega
  rw [ofWord, word?, if_pos hfits, Int.toNat_natCast, UInt64.ofNat_toNat]

theorem Decode.word_number {n : Number} {w : UInt64} (h : n.word? = some w) :
    word (.number n) = .ok w := by
  simp only [word, h]

theorem BlameConfig.decode_toJson (c : BlameConfig) : config c.toJson = .ok c := by
  have hdepth : readConfigField {} "max_depth" (.word c.maxDepth) = .ok { maxDepth := c.maxDepth } :=
    bind_ok (word_number (Number.word?_ofWord c.maxDepth)) _
  exact (record_cons hdepth _).trans rfl

namespace BlameTree

theorem blamingToJson_eq (ts : List BlameTree) : blamingToJson ts = ts.map toJson := by
  induction ts with
  | nil => rfl
  | cons t ts ih => rw [blamingToJson, ih, List.map_cons]

theorem depth_le_of_mem {ts : List BlameTree} {t : BlameTree} (ht : t ∈ ts) :
    depth t.toJson ≤ depthOfItems (ts.map toJson) := by
  induction ts with
  | nil => cases ht
  | cons u us ih =>
    rw [List.map_cons, depthOfItems]
    rcases List.mem_cons.mp ht with rfl | ht
    · exact Nat.le_max_left _ _
    · exact Nat.le_trans (ih ht) (Nat.le_max_right _ _)

/-- A node takes two levels of the value, one for the object and one for the list below the node. -/
theorem depth_toJson (p : Position) (ts : List BlameTree) :
    depthOfItems (ts.map toJson) + 2 ≤ depth (mk p ts).toJson := by
  rw [toJson, blamingToJson_eq]
  simp only [depth, depthOfMembers]
  omega

/-- Levels enough for the value are enough for the tree. -/
theorem survives_within {levels : Nat} {t : BlameTree} (h : depth t.toJson ≤ levels) :
    Survives toJson (blameWithin levels) Alike t := by
  -- by the levels, as the decoder goes; the trees below a node are two levels down in the value
  induction levels generalizing t with
  | zero =>
    obtain ⟨p, ts⟩ := t
    have hdepth := depth_toJson p ts
    omega
  | succ levels ih =>
    obtain ⟨p, ts⟩ := t
    have hdepth := depth_toJson p ts
    obtain ⟨q, hq, hpq, hagain⟩ := p.survives
    obtain ⟨us, hus, htus, hagains⟩ := survives_map fun u hu =>
      ih (Nat.le_trans (depth_le_of_mem hu) (by omega : depthOfItems (ts.map toJson) ≤ levels))
    refine ⟨mk q us, ?_, .mk hpq htus, ?_⟩
    · have hnode : readBlameField (blameWithin levels) {} "node" p.toJson = .ok ⟨some q, none⟩ :=
        bind_ok hq _
      have hblaming : readBlameField (blameWithin levels) ⟨some q, none⟩ "blaming"
          (.array (ts.map toJson)) = .ok ⟨some q, some us⟩ := bind_ok hus _
      have hread : record ["node", "blaming"] (readBlameField (blameWithin levels)) {}
          (mk p ts).toJson = .ok ⟨some q, some us⟩ := by
        rw [toJson, blamingToJson_eq]
        exact (record_cons hnode _).trans ((record_cons hblaming _).trans rfl)
      exact bind_ok hread _
    · rw [toJson, toJson, blamingToJson_eq, blamingToJson_eq, hagain, hagains]

theorem survives (t : BlameTree) : Survives toJson blame Alike t := survives_within (Nat.le_refl _)

end BlameTree

/-- Every provenance record can be kept and read back. -/
theorem records_survive :
    (∀ m : Mapping, Survives Mapping.toJson mapping Mapping.Alike m) ∧
    (∀ p : Position, Survives Position.toJson position Same p) ∧
    (∀ c : BlameConfig, Survives BlameConfig.toJson config Eq c) ∧
    ∀ t : BlameTree, Survives BlameTree.toJson blame BlameTree.Alike t :=
  ⟨Mapping.survives, Position.survives, fun c => ⟨c, c.decode_toJson, rfl, rfl⟩, BlameTree.survives⟩

end Lineage
