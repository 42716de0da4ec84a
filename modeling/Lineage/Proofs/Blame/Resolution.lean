import Lineage.Blame.Basic
import Lineage.Proofs.Supply

/-! What a resolution builds. Every node of a blame tree is judged by the lookup at its position and
by the nodes above it: it has the positions behind it as children, or there is a reason why it has
none. A resolution that gives no tree names a position whose lookup failed. -/

namespace Lineage

section MapM

variable {ε α β : Type} {f : α → Except ε β}

theorem forall₂_of_mapM_eq_ok {xs : List α} {ys : List β} (h : xs.mapM f = .ok ys) :
    List.Forall₂ (fun x y => f x = .ok y) xs ys := by
  induction xs generalizing ys with
  | nil =>
    cases h
    exact .nil
  | cons x rest ih =>
    rw [List.mapM_cons] at h
    cases hx : f x with
    | error e =>
      rw [hx] at h
      cases h
    | ok y =>
      rw [hx] at h
      cases hrest : rest.mapM f with
      | error e =>
        rw [hrest] at h
        cases h
      | ok zs =>
        rw [hrest] at h
        cases h
        exact .cons hx (ih hrest)

theorem exists_of_mapM_eq_error {xs : List α} {e : ε} (h : xs.mapM f = .error e) :
    ∃ x ∈ xs, f x = .error e := by
  induction xs with
  | nil => cases h
  | cons x rest ih =>
    rw [List.mapM_cons] at h
    cases hx : f x with
    | error e' =>
      rw [hx] at h
      cases h
      exact ⟨x, List.mem_cons_self, hx⟩
    | ok y =>
      rw [hx] at h
      cases hrest : rest.mapM f with
      | error e' =>
        rw [hrest] at h
        cases h
        obtain ⟨z, hz, hfz⟩ := ih hrest
        exact ⟨z, List.mem_cons_of_mem _ hz, hfz⟩
      | ok zs =>
        rw [hrest] at h
        cases h

end MapM

namespace BlameTree

/-- `t` below the nodes `base` has the subtree `s` below the nodes `above`. Nodes above are listed
from the closest one up. -/
inductive Has (base : List Position) (t : BlameTree) : List Position → BlameTree → Prop
  | root : Has base t base t
  | child {above : List Position} {s c : BlameTree} (hs : Has base t above s)
      (hc : c ∈ s.blaming) : Has base t (s.node :: above) c

/-- Why the node at the root of `s` has the children that it has, below the nodes `above`. -/
structure Justified (lookup : Lookup) (config : BlameConfig) (above : List Position)
    (s : BlameTree) : Prop where
  depth_le : above.length ≤ config.maxDepth.toNat
  /-- A node with children has those that were looked up, in order, and was not met before. -/
  children : s.isLeaf = false → ∃ ps, lookup s.node = .ok ps ∧
    s.blaming.map node = ps.map fun p => { p with auxiliary := p.auxiliary.or s.node.auxiliary }
  fresh : s.isLeaf = false → ∀ a ∈ above, s.node.samePlace a = false
  childless : s.isLeaf = true → lookup s.node = .ok [] ∨ above.length = config.maxDepth.toNat ∨
    (∃ a ∈ above, s.node.samePlace a = true) ∨
    (config.lenient = true ∧ 0 < above.length ∧ ∃ e, lookup s.node = .error e)

/-- The subtrees of a tree are the tree itself and the subtrees of its children. -/
theorem Has.cases_root {base : List Position} {p : Position} {ts : List BlameTree}
    {above : List Position} {s : BlameTree} (h : Has base (mk p ts) above s) :
    above = base ∧ s = mk p ts ∨ ∃ t ∈ ts, Has (p :: base) t above s := by
  induction h with
  | root => exact .inl ⟨rfl, rfl⟩
  | child hs hc ih =>
    rcases ih with ⟨rfl, rfl⟩ | ⟨t, ht, hs⟩
    · exact .inr ⟨_, hc, .root⟩
    · exact .inr ⟨t, ht, .child hs hc⟩

/-- The subtrees of a child are subtrees of the whole. -/
theorem Has.under {base : List Position} {p : Position} {ts : List BlameTree} {t : BlameTree}
    {above : List Position} {s : BlameTree} (h : Has (p :: base) t above s) (ht : t ∈ ts) :
    Has base (mk p ts) above s := by
  induction h with
  | root => exact .child .root ht
  | child _ hc ih => exact .child ih hc

theorem isOpen_map (above : List Position) (p : Position) :
    isOpen (above.map .ofPosition) p = above.any (p.samePlace ·) := by
  rw [isOpen_eq, List.any_map]
  rfl

variable {lookup : Lookup} {lenient tolerant : Bool} {depth : Nat} {above : List Position}
  {p : Position}

/-- What a resolution puts below a position for one of those behind it. -/
def explain (lookup : Lookup) (lenient : Bool) (depth : Nat) (above : List Position)
    (parent : Position) : Except BlameError BlameTree :=
  if isOpen (above.map .ofPosition) parent then .ok (leaf parent)
  else resolve lookup lenient depth lenient (above.map .ofPosition) parent

/-- A resolution gives up at a failed lookup, it ends where nothing lies behind or no stage is left,
and otherwise it goes on to what lies behind. -/
theorem resolve_cases (lookup : Lookup) (lenient tolerant : Bool) (depth : Nat)
    (above : List Position) (p : Position) :
    (∃ e, lookup p = .error e ∧
      resolve lookup lenient depth tolerant (above.map .ofPosition) p =
        if tolerant then .ok (leaf p) else .error ⟨p, e⟩) ∨
    ((lookup p = .ok [] ∨ (∃ ps, lookup p = .ok ps) ∧ depth = 0) ∧
      resolve lookup lenient depth tolerant (above.map .ofPosition) p = .ok (leaf p)) ∨
    ∃ d ps, depth = d + 1 ∧ lookup p = .ok ps ∧ ps ≠ [] ∧
      resolve lookup lenient depth tolerant (above.map .ofPosition) p =
        (ps.mapM fun q => explain lookup lenient d (p :: above) (q.inheritAuxiliary p)) >>=
          fun ts => .ok (mk p ts) := by
  unfold resolve
  cases hl : lookup p with
  | error e => exact .inl ⟨e, rfl, rfl⟩
  | ok ps =>
    refine .inr ?_
    cases ps with
    | nil => exact .inl ⟨.inl rfl, rfl⟩
    | cons q qs =>
      cases depth with
      | zero => exact .inl ⟨.inr ⟨⟨_, rfl⟩, rfl⟩, rfl⟩
      | succ d => exact .inr ⟨d, q :: qs, rfl, rfl, by simp, rfl⟩

theorem trace_eq (lookup : Lookup) (config : BlameConfig) (start : Position) :
    trace lookup config start = resolve lookup config.lenient config.maxDepth.toNat false
      (([] : List Position).map .ofPosition) start := rfl

theorem resolve_ok_cases {t : BlameTree}
    (h : resolve lookup lenient depth tolerant (above.map .ofPosition) p = .ok t) :
    t = leaf p ∧ (lookup p = .ok [] ∨ ((∃ ps, lookup p = .ok ps) ∧ depth = 0) ∨
      (tolerant = true ∧ ∃ e, lookup p = .error e)) ∨
    ∃ d ps ts, depth = d + 1 ∧ lookup p = .ok ps ∧ ps ≠ [] ∧ t = mk p ts ∧
      List.Forall₂ (fun q c =>
        explain lookup lenient d (p :: above) (q.inheritAuxiliary p) = .ok c) ps ts := by
  rcases resolve_cases lookup lenient tolerant depth above p with
    ⟨e, hl, heq⟩ | ⟨hl, heq⟩ | ⟨d, ps, hd, hl, hne, heq⟩ <;> rw [heq] at h
  · split at h
    · cases h
      exact .inl ⟨rfl, .inr (.inr ⟨‹_›, e, hl⟩)⟩
    · cases h
  · cases h
    exact .inl ⟨rfl, hl.imp_right .inl⟩
  · cases hts : ps.mapM fun q =>
        explain lookup lenient d (p :: above) (q.inheritAuxiliary p) with
    | error e =>
      rw [hts] at h
      cases h
    | ok ts =>
      rw [hts] at h
      cases h
      exact .inr ⟨d, ps, ts, hd, hl, hne, rfl, forall₂_of_mapM_eq_ok hts⟩

theorem resolve_error_cases {e : BlameError}
    (h : resolve lookup lenient depth tolerant (above.map .ofPosition) p = .error e) :
    (e.position = p ∧ lookup p = .error e.cause) ∨
    ∃ d q, depth = d + 1 ∧ explain lookup lenient d (p :: above) q = .error e := by
  rcases resolve_cases lookup lenient tolerant depth above p with
    ⟨cause, hl, heq⟩ | ⟨hl, heq⟩ | ⟨d, ps, hd, hl, hne, heq⟩ <;> rw [heq] at h
  · split at h
    · cases h
    · cases h
      exact .inl ⟨rfl, hl⟩
  · cases h
  · cases hts : ps.mapM fun q =>
        explain lookup lenient d (p :: above) (q.inheritAuxiliary p) with
    | error e' =>
      rw [hts] at h
      cases h
      obtain ⟨q, _, hq⟩ := exists_of_mapM_eq_error hts
      exact .inr ⟨d, _, hd, hq⟩
    | ok ts =>
      rw [hts] at h
      cases h

/-- A resolution fails only where a lookup does. -/
theorem lookup_of_resolve_eq_error {e : BlameError}
    (h : resolve lookup lenient depth tolerant (above.map .ofPosition) p = .error e) :
    lookup e.position = .error e.cause := by
  induction depth generalizing tolerant above p with
  | zero =>
    rcases resolve_error_cases h with ⟨hp, hl⟩ | ⟨d, q, hd, _⟩
    · rw [hp, hl]
    · cases hd
  | succ depth ih =>
    rcases resolve_error_cases h with ⟨hp, hl⟩ | ⟨d, q, hd, hq⟩
    · rw [hp, hl]
    · cases hd
      unfold explain at hq
      split at hq
      · cases hq
      · exact ih hq

section Justified

variable {config : BlameConfig} {t : BlameTree}

/-- What a justified tree is about, and that all of it is justified. -/
def JustifiedAt (lookup : Lookup) (config : BlameConfig) (base : List Position) (p : Position)
    (t : BlameTree) : Prop :=
  t.node = p ∧ ∀ above s, Has base t above s → Justified lookup config above s

theorem justifiedAt_leaf (hle : above.length ≤ config.maxDepth.toNat)
    (hreason : lookup p = .ok [] ∨ above.length = config.maxDepth.toNat ∨
      (∃ a ∈ above, p.samePlace a = true) ∨
      (config.lenient = true ∧ 0 < above.length ∧ ∃ e, lookup p = .error e)) :
    JustifiedAt lookup config above p (leaf p) := by
  refine ⟨rfl, fun above' s hs => ?_⟩
  rcases Has.cases_root hs with ⟨rfl, rfl⟩ | ⟨t, ht, _⟩
  · refine ⟨hle, ?_, ?_, fun _ => hreason⟩ <;> rintro ⟨⟩
  · cases ht

theorem justifiedAt_mk {ps : List Position} {ts : List BlameTree}
    (hle : above.length ≤ config.maxDepth.toNat) (hfresh : ∀ a ∈ above, p.samePlace a = false)
    (hl : lookup p = .ok ps) (hne : ps ≠ [])
    (hts : List.Forall₂ (fun q c =>
      JustifiedAt lookup config (p :: above) (q.inheritAuxiliary p) c) ps ts) :
    JustifiedAt lookup config above p (mk p ts) := by
  refine ⟨rfl, fun above' s hs => ?_⟩
  rcases hs.cases_root with ⟨rfl, rfl⟩ | ⟨t, ht, hs⟩
  · refine ⟨hle, fun _ => ⟨ps, hl, ?_⟩, fun _ => hfresh, fun hleaf => ?_⟩
    · have hnodes : List.Forall₂ Eq (ts.map node) (ps.map (·.inheritAuxiliary p)) := by
        rw [List.forall₂_map_left_iff, List.forall₂_map_right_iff]
        exact (hts.imp fun _ _ h => h.1).flip
      rwa [List.forall₂_eq_eq_eq] at hnodes
    · -- there is a child for every position behind this one
      cases List.isEmpty_iff.mp hleaf
      exact absurd (List.forall₂_nil_right_iff.mp hts) hne
  · obtain ⟨q, _, hq⟩ := exists_of_mem_right hts ht
    exact hq.2 above' s hs

theorem justifiedAt_of_explain (hlt : above.length ≤ config.maxDepth.toNat)
    (hresolve : (∀ a ∈ above, p.samePlace a = false) →
      resolve lookup config.lenient depth config.lenient (above.map .ofPosition) p = .ok t →
      JustifiedAt lookup config above p t)
    (h : explain lookup config.lenient depth above p = .ok t) :
    JustifiedAt lookup config above p t := by
  rw [explain, isOpen_map] at h
  split at h
  · cases h
    exact justifiedAt_leaf hlt (.inr (.inr (.inl (List.any_eq_true.mp ‹_›))))
  · refine hresolve (fun a ha => ?_) h
    rw [Bool.eq_false_iff]
    exact fun hsame => ‹¬_› (List.any_eq_true.mpr ⟨a, ha, hsame⟩)

/-- A resolution that still has `depth` stages below the nodes `above` gives a justified tree. -/
theorem justifiedAt_of_resolve (hd : above.length + depth = config.maxDepth.toNat)
    (htol : tolerant = true → config.lenient = true ∧ 0 < above.length)
    (hfresh : ∀ a ∈ above, p.samePlace a = false)
    (h : resolve lookup config.lenient depth tolerant (above.map .ofPosition) p = .ok t) :
    JustifiedAt lookup config above p t := by
  induction depth generalizing tolerant above p t with
  | zero =>
    rcases resolve_ok_cases h with ⟨rfl, _⟩ | ⟨d, _, _, hd', _⟩
    · exact justifiedAt_leaf (by omega) (.inr (.inl (by omega)))
    · cases hd'
  | succ depth ih =>
    rcases resolve_ok_cases h with
      ⟨rfl, hl | ⟨_, hd'⟩ | ⟨ht, e, hl⟩⟩ | ⟨d, ps, ts, hd', hl, hne, rfl, hts⟩
    · exact justifiedAt_leaf (by omega) (.inl hl)
    · cases hd'
    · exact justifiedAt_leaf (by omega) (.inr (.inr (.inr ⟨(htol ht).1, (htol ht).2, e, hl⟩)))
    · cases hd'
      have hlen : (p :: above).length + depth = config.maxDepth.toNat := by
        rw [List.length_cons]
        omega
      refine justifiedAt_mk (by omega) hfresh hl hne (hts.imp fun q c hc => ?_)
      refine justifiedAt_of_explain (by omega) (fun hfresh' hc' => ?_) hc
      exact ih hlen (fun hlenient => ⟨hlenient, Nat.succ_pos _⟩) hfresh' hc'

/-- For every lookup and every start, a resolution either names a position whose lookup failed, or it
gives a tree of the start in which every node has the children it should have. -/
theorem trace_justified (lookup : Lookup) (config : BlameConfig) (start : Position) :
    (∃ e, trace lookup config start = .error e ∧ lookup e.position = .error e.cause) ∨
    ∃ t, trace lookup config start = .ok t ∧ t.node = start ∧
      ∀ above s, Has [] t above s → Justified lookup config above s := by
  cases h : trace lookup config start with
  | error e =>
    rw [trace_eq] at h
    exact .inl ⟨e, rfl, lookup_of_resolve_eq_error h⟩
  | ok t =>
    rw [trace_eq] at h
    refine .inr ⟨t, rfl, justifiedAt_of_resolve ?_ ?_ ?_ h⟩
    · exact Nat.zero_add _
    · rintro ⟨⟩
    · exact fun a ha => absurd ha List.not_mem_nil

end Justified

end BlameTree

end Lineage
