import Lineage.Proofs.Blame.Resolution
import Lineage.Store.Memory

/-! Strict and lenient resolutions. A strict one gives up at the first lookup that fails, and a lenient
one makes a leaf of it and goes on, unless it is that of the start. Both follow the same positions in the
same order, so a strict resolution is a lenient one whose nodes are checked afterwards: its failure is
that of the first node in pre-order that cannot be looked up. A node that repeats a place above it is
never looked up, and is not checked.
-/

namespace Lineage

namespace BlameTree

mutual

/-- The nodes in pre-order, each with the nodes above it, the closest one first. -/
def ancestries (above : List Position) : BlameTree → List (List Position × Position)
  | mk node blaming => (above, node) :: ancestriesAll (node :: above) blaming

def ancestriesAll (above : List Position) : List BlameTree → List (List Position × Position)
  | [] => []
  | t :: ts => t.ancestries above ++ ancestriesAll above ts

end

/-- Why a node cannot be looked up, unless it repeats a place above it. -/
def failure? (lookup : Lookup) (n : List Position × Position) : Option BlameError :=
  if n.1.any (n.2.samePlace ·) then none
  else match lookup n.2 with
    | .error cause => some ⟨n.2, cause⟩
    | .ok _ => none

/-- The first node in pre-order that cannot be looked up decides the failure of the tree. -/
def firstFailure? (lookup : Lookup) (t : BlameTree) : Option BlameError :=
  (t.ancestries []).findSome? (failure? lookup)

variable {lookup : Lookup} {lenient tolerant : Bool} {depth : Nat} {above : List Position}
  {p : Position} {ps : List Position}

theorem resolve_of_error {cause : StoreError} (hl : lookup p = .error cause)
    (opened : List OpenPlace) : resolve lookup lenient depth tolerant opened p =
      if tolerant then .ok (leaf p) else .error ⟨p, cause⟩ := by
  rw [resolve, hl]

theorem resolve_of_stop (hl : lookup p = .ok ps) (hstop : ps = [] ∨ depth = 0)
    (opened : List OpenPlace) : resolve lookup lenient depth tolerant opened p = .ok (leaf p) := by
  rw [resolve, hl]
  rcases hstop with rfl | rfl
  · rfl
  · cases ps <;> rfl

theorem resolve_of_more (hl : lookup p = .ok ps) (hne : ps ≠ []) :
    resolve lookup lenient (depth + 1) tolerant (above.map .ofPosition) p =
      (ps.mapM fun q => explain lookup lenient depth (p :: above) (q.inheritAuxiliary p)) >>=
        fun ts => .ok (mk p ts) := by
  rw [resolve, hl]
  cases ps with
  | nil => exact absurd rfl hne
  | cons q qs => rfl

section Checked

/-- A tree below the nodes `above`, or the first failure among its nodes. -/
def checked (lookup : Lookup) (above : List Position) (t : BlameTree) :
    Except BlameError BlameTree :=
  match (t.ancestries above).findSome? (failure? lookup) with
  | some e => .error e
  | none => .ok t

variable {t : BlameTree} {ts : List BlameTree}

theorem findSome?_leaf (lookup : Lookup) (above : List Position) (p : Position) :
    ((leaf p).ancestries above).findSome? (failure? lookup) = failure? lookup (above, p) := by
  rw [leaf, ancestries, ancestriesAll, List.findSome?_singleton]

theorem failure?_of_ok (hl : lookup p = .ok ps) (above : List Position) :
    failure? lookup (above, p) = none := by
  simp only [failure?, hl, ite_self]

theorem checked_leaf (h : failure? lookup (above, p) = none) :
    checked lookup above (leaf p) = .ok (leaf p) := by
  rw [checked, findSome?_leaf, h]

/-- Trees that are checked one after the other fail as the first one does that fails. -/
theorem mapM_checked {f : Position → Except BlameError BlameTree}
    (h : List.Forall₂ (fun q t => f q = checked lookup above t) ps ts) :
    ps.mapM f = match (ancestriesAll above ts).findSome? (failure? lookup) with
      | some e => .error e
      | none => .ok ts := by
  induction h with
  | nil => rfl
  | @cons q t ps ts hq _ ih =>
    rw [List.mapM_cons, hq, ih, checked, ancestriesAll, List.findSome?_append]
    cases (t.ancestries above).findSome? (failure? lookup) with
    | some e => rfl
    | none => cases (ancestriesAll above ts).findSome? (failure? lookup) <;> rfl

/-- The node itself passes the check, so that the trees below it decide. -/
theorem checked_mk (hl : lookup p = .ok ps) : checked lookup above (mk p ts) =
    (match (ancestriesAll (p :: above) ts).findSome? (failure? lookup) with
      | some e => .error e
      | none => .ok ts) >>= fun ts => .ok (mk p ts) := by
  rw [checked, ancestries, List.findSome?_cons, failure?_of_ok hl]
  cases (ancestriesAll (p :: above) ts).findSome? (failure? lookup) <;> rfl

/-- What is tolerant gives a tree, and what is strict checks that tree. -/
def Checks (lookup : Lookup) (depth : Nat) (above : List Position) (p : Position) : Prop :=
  ∃ t, resolve lookup true depth true (above.map .ofPosition) p = .ok t ∧
    resolve lookup false depth false (above.map .ofPosition) p = checked lookup above t

theorem checks_of_error {cause : StoreError} (hl : lookup p = .error cause)
    (hfresh : ∀ a ∈ above, p.samePlace a = false) : Checks lookup depth above p := by
  have hclosed : above.any (p.samePlace ·) = false := by
    rw [List.any_eq_false]
    exact fun a ha => by rw [hfresh a ha]; exact Bool.false_ne_true
  refine ⟨leaf p, resolve_of_error hl _, ?_⟩
  rw [resolve_of_error hl, checked, findSome?_leaf, failure?, hclosed, hl]
  rfl

theorem checks_of_stop (hl : lookup p = .ok ps) (hstop : ps = [] ∨ depth = 0) :
    Checks lookup depth above p := by
  refine ⟨leaf p, resolve_of_stop hl hstop _, ?_⟩
  rw [resolve_of_stop hl hstop, checked_leaf (failure?_of_ok hl above)]

/-- What one position behind another is explained by passes or fails the check in its turn. -/
theorem explain_checks (h : (∀ a ∈ above, p.samePlace a = false) → Checks lookup depth above p) :
    ∃ t, explain lookup true depth above p = .ok t ∧
      explain lookup false depth above p = checked lookup above t := by
  unfold explain
  rw [isOpen_map]
  by_cases hopen : above.any (p.samePlace ·) = true
  · rw [if_pos hopen, if_pos hopen]
    exact ⟨leaf p, rfl, (checked_leaf (if_pos hopen)).symm⟩
  · rw [if_neg hopen, if_neg hopen]
    refine h fun a ha => ?_
    rw [Bool.eq_false_iff]
    exact fun hsame => hopen (List.any_eq_true.mpr ⟨a, ha, hsame⟩)

theorem checks_of_more (hl : lookup p = .ok ps) (hne : ps ≠ [])
    (h : ∀ q, ∃ t, explain lookup true depth (p :: above) q = .ok t ∧
      explain lookup false depth (p :: above) q = checked lookup (p :: above) t) :
    Checks lookup (depth + 1) above p := by
  cases hts : ps.mapM fun q => explain lookup true depth (p :: above) (q.inheritAuxiliary p) with
  | error e =>
    obtain ⟨q, _, hq⟩ := exists_of_mapM_eq_error hts
    obtain ⟨t, ht, _⟩ := h (q.inheritAuxiliary p)
    cases hq.symm.trans ht
  | ok ts =>
    have hall : List.Forall₂ (fun q t => explain lookup false depth (p :: above)
        (q.inheritAuxiliary p) = checked lookup (p :: above) t) ps ts := by
      refine (forall₂_of_mapM_eq_ok hts).imp fun q t hq => ?_
      obtain ⟨t', ht', hstrict⟩ := h (q.inheritAuxiliary p)
      cases hq.symm.trans ht'
      exact hstrict
    refine ⟨mk p ts, ?_, ?_⟩
    · rw [resolve_of_more hl hne, hts]
      rfl
    · rw [resolve_of_more hl hne, mapM_checked hall, checked_mk hl]

/-- A strict resolution of a place that is not open is a tolerant one that is checked. -/
theorem checks (lookup : Lookup) (hfresh : ∀ a ∈ above, p.samePlace a = false) :
    Checks lookup depth above p := by
  induction depth generalizing above p with
  | zero =>
    cases hl : lookup p with
    | error cause => exact checks_of_error hl hfresh
    | ok ps => exact checks_of_stop hl (.inr rfl)
  | succ depth ih =>
    cases hl : lookup p with
    | error cause => exact checks_of_error hl hfresh
    | ok ps =>
      by_cases hne : ps = []
      · exact checks_of_stop hl (.inl hne)
      · exact checks_of_more hl hne fun q => explain_checks ih

/-- A resolution whose start can be looked up does not matter how tolerant it is there. -/
theorem resolve_tolerant_eq (hl : lookup p = .ok ps) :
    resolve lookup lenient depth tolerant (above.map .ofPosition) p =
      resolve lookup lenient depth true (above.map .ofPosition) p := by
  by_cases hne : ps = []
  · rw [resolve_of_stop hl (.inl hne), resolve_of_stop hl (.inl hne)]
  · cases depth with
    | zero => rw [resolve_of_stop hl (.inr rfl), resolve_of_stop hl (.inr rfl)]
    | succ depth => rw [resolve_of_more hl hne, resolve_of_more hl hne]

end Checked

section Trace

variable {start : Position}

theorem trace_of_error {cause : StoreError} (hl : lookup start = .error cause)
    (config : BlameConfig) : trace lookup config start = .error ⟨start, cause⟩ := by
  rw [trace_eq, resolve_of_error hl]
  rfl

theorem trace_of_ok (hl : lookup start = .ok ps) (maxDepth : UInt64) :
    ∃ t, trace lookup ⟨maxDepth, true⟩ start = .ok t ∧
      trace lookup ⟨maxDepth, false⟩ start = checked lookup [] t := by
  have hchecks : Checks lookup maxDepth.toNat [] start :=
    checks lookup fun a ha => absurd ha List.not_mem_nil
  obtain ⟨t, hlenient, hstrict⟩ := hchecks
  refine ⟨t, ?_, ?_⟩
  · rw [trace_eq, resolve_tolerant_eq hl]
    exact hlenient
  · rw [trace_eq]
    exact hstrict

/-- Whatever a store answers, a strict resolution that gives a tree gives that of the lenient one. A
lenient one gives no tree only when its start cannot be looked up. Where the two differ, the failure is
that of the first node of the lenient tree that cannot be looked up. -/
theorem leniency (lookup : Lookup) (maxDepth : UInt64) (start : Position) :
    (∀ t, trace lookup ⟨maxDepth, false⟩ start = .ok t →
      trace lookup ⟨maxDepth, true⟩ start = .ok t) ∧
    ((∃ e, trace lookup ⟨maxDepth, true⟩ start = .error e) ↔
      ∃ cause, lookup start = .error cause) ∧
    ∀ e t, trace lookup ⟨maxDepth, false⟩ start = .error e →
      trace lookup ⟨maxDepth, true⟩ start = .ok t → t.firstFailure? lookup = some e := by
  cases hl : lookup start with
  | error cause =>
    rw [trace_of_error hl, trace_of_error hl]
    exact ⟨nofun, ⟨fun _ => ⟨cause, rfl⟩, fun _ => ⟨_, rfl⟩⟩, nofun⟩
  | ok ps =>
    obtain ⟨t, hlenient, hstrict⟩ := trace_of_ok hl maxDepth
    rw [hlenient, hstrict, checked, ← firstFailure?]
    cases hfirst : t.firstFailure? lookup with
    | some e => exact ⟨nofun, ⟨nofun, nofun⟩, by rintro _ _ ⟨⟩ ⟨⟩; exact hfirst⟩
    | none => exact ⟨fun _ h => h, ⟨nofun, nofun⟩, nofun⟩

end Trace

/-- Two generated documents that explain each other, each of them also by a document that is not there. -/
def gapped : MemoryStore :=
  let place (name : String) : Pointer := ⟨[.key name]⟩
  ((default : MemoryStore).putMappings ⟨"a"⟩
    [⟨place "x", place "y", ⟨"b"⟩, none, false⟩, ⟨place "x", place "z", ⟨"gone"⟩, none, false⟩]).putMappings
    ⟨"b"⟩ [⟨place "y", place "x", ⟨"a"⟩, none, false⟩, ⟨place "y", place "w", ⟨"lost"⟩, none, false⟩]

theorem leniency_gapped : ∃ e t,
    trace gapped.behind ⟨8, false⟩ ⟨⟨"a"⟩, ⟨[.key "x"]⟩, none⟩ = .error e ∧
      trace gapped.behind ⟨8, true⟩ ⟨⟨"a"⟩, ⟨[.key "x"]⟩, none⟩ = .ok t ∧ t.size = 5 ∧
      e.position.source = ⟨"lost"⟩ ∧ t.firstFailure? gapped.behind = some e := by
  have hstrict : trace gapped.behind ⟨8, false⟩ ⟨⟨"a"⟩, ⟨[.key "x"]⟩, none⟩ =
      .error ⟨⟨⟨"lost"⟩, ⟨[.key "w"]⟩, none⟩, .documentNotFound ⟨"lost"⟩⟩ := by rfl
  have hlenient : trace gapped.behind ⟨8, true⟩ ⟨⟨"a"⟩, ⟨[.key "x"]⟩, none⟩ =
      .ok (.mk ⟨⟨"a"⟩, ⟨[.key "x"]⟩, none⟩
        [.mk ⟨⟨"b"⟩, ⟨[.key "y"]⟩, none⟩
          [leaf ⟨⟨"a"⟩, ⟨[.key "x"]⟩, none⟩, leaf ⟨⟨"lost"⟩, ⟨[.key "w"]⟩, none⟩],
          leaf ⟨⟨"gone"⟩, ⟨[.key "z"]⟩, none⟩]) := by rfl
  exact ⟨_, _, hstrict, hlenient, rfl, rfl, (leniency _ 8 _).2.2 _ _ hstrict hlenient⟩

end BlameTree

end Lineage
