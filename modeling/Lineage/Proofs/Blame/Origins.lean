import Lineage.Proofs.Blame.Leaves
import Lineage.Proofs.Blame.Resolution
import Lineage.Store.Memory
import Mathlib.Data.Nat.Find

/-! Cutting cycles loses no origin. A place is explained once on every way up; a shortest way from the
start to an origin passes no place twice, so the resolution follows it to its end. -/

namespace Lineage

open BlameTree

namespace MemoryStore

variable {s : MemoryStore} {p p' q r : Position} {m n : Nat}

/-- `q` is the place of a position directly behind `p`. -/
def Behind (s : MemoryStore) (p q : Position) : Prop :=
  ∃ ps, s.behind p = .ok ps ∧ ∃ u ∈ ps, u.samePlace q = true

/-- A number of steps, or fewer, lead from the place of `p` to that of `q`. -/
inductive Reaches (s : MemoryStore) : Nat → Position → Position → Prop
  | here {n : Nat} {p q : Position} (h : p.samePlace q = true) : Reaches s n p q
  | step {n : Nat} {p q r : Position} (h : s.Behind p r) (hr : Reaches s n r q) :
      Reaches s (n + 1) p q

/-- A lookup goes by the place alone. -/
theorem behind_congr (h : p.samePlace p' = true) {ps : List Position} (hp : s.behind p = .ok ps) :
    ∃ ps', s.behind p' = .ok ps' ∧ ∀ u ∈ ps, ∃ u' ∈ ps', u'.samePlace u = true := by
  obtain ⟨hsource, htokens⟩ := Position.samePlace_iff.mp h
  unfold behind at hp ⊢
  rw [← hsource]
  cases hd : s.document? p.source with
  | none =>
    rw [hd] at hp
    cases hp
  | some d =>
    rw [hd] at hp
    cases hp
    exact ⟨_, rfl, fun u hu => exists_samePlace_behind htokens hu⟩

theorem Behind.congr (hb : s.Behind p q) (h : p.samePlace p' = true) : s.Behind p' q := by
  obtain ⟨ps, hp, u, hu, huq⟩ := hb
  obtain ⟨ps', hp', hmem⟩ := behind_congr h hp
  obtain ⟨u', hu', hsame⟩ := hmem u hu
  exact ⟨ps', hp', u', hu', Position.samePlace_trans hsame huq⟩

/-- What nothing lies behind is an origin however it is spelled. -/
theorem behind_eq_nil_congr (h : p.samePlace p' = true) (hp : s.behind p = .ok []) :
    s.behind p' = .ok [] := by
  obtain ⟨ps, hps, _⟩ := behind_congr h hp
  obtain ⟨ps', hps', hmem⟩ := behind_congr (Position.samePlace_symm h) hps
  rw [hp] at hps'
  cases hps'
  cases ps with
  | nil => exact hps
  | cons u us =>
    obtain ⟨u', hu', _⟩ := hmem u List.mem_cons_self
    cases hu'

theorem Reaches.mono (h : s.Reaches m p q) (hmn : m ≤ n) : s.Reaches n p q := by
  induction h generalizing n with
  | here h => exact .here h
  | step h _ ih =>
    obtain ⟨n, rfl⟩ := Nat.exists_eq_add_of_lt hmn
    exact .step h (ih (by omega))

theorem Reaches.congr (hr : s.Reaches n p q) (h : p.samePlace p' = true) : s.Reaches n p' q := by
  cases hr with
  | here hpq => exact .here (Position.samePlace_trans (Position.samePlace_symm h) hpq)
  | step hb hr => exact .step (hb.congr h) hr

/-- On a shortest way the first step leads to a place from which the rest is shortest. -/
theorem Reaches.exists_step (hr : s.Reaches (n + 1) p q) (hmin : ∀ j ≤ n, ¬s.Reaches j p q) :
    ∃ r, s.Behind p r ∧ s.Reaches n r q ∧ ∀ j < n, ¬s.Reaches j r q := by
  cases hr with
  | here h => exact absurd (.here h) (hmin 0 (Nat.zero_le n))
  | step hb hr => exact ⟨_, hb, hr, fun j hj hj' => hmin (j + 1) hj (.step hb hj')⟩

section Strict

variable {lenient tolerant : Bool} {depth : Nat} {above : List Position} {t : BlameTree}

/-- A position takes over a locator and stays where it is. -/
theorem samePlace_inheritAuxiliary (u p : Position) :
    (u.inheritAuxiliary p).samePlace u = true := Position.samePlace_iff.mpr ⟨rfl, rfl⟩

/-- The resolution finds every origin that is `n` steps away and no fewer, when the open places are
farther from it and at least `n` stages are left. -/
theorem leaf_of_reaches (ht : resolve s.behind false depth tolerant (above.map .ofPosition) p = .ok t)
    (hn : n ≤ depth) (hq : s.behind q = .ok []) (hr : s.Reaches n p q)
    (hmin : ∀ j < n, ¬s.Reaches j p q) (hfar : ∀ a ∈ above, ¬s.Reaches n a q) :
    ∃ l, t.Leaf l ∧ l.samePlace q = true := by
  induction n generalizing depth tolerant above p t with
  | zero =>
    cases hr with
    | here hpq =>
      have hnil := behind_eq_nil_congr (Position.samePlace_symm hpq) hq
      rcases resolve_ok_cases ht with ⟨rfl, _⟩ | ⟨_, ps, _, _, hps, hne, _⟩
      · exact ⟨p, .here, hpq⟩
      · rw [hnil] at hps
        cases hps
        exact absurd rfl hne
  | succ n ih =>
    obtain ⟨r, ⟨ps, hps, u, hu, hur⟩, hrq, hrmin⟩ :=
      hr.exists_step fun j hj => hmin j (Nat.lt_succ_of_le hj)
    rcases resolve_ok_cases ht with
      ⟨_, hl | ⟨_, hd⟩ | ⟨_, e, hl⟩⟩ | ⟨d, ps', ts, hd, hps', _, rfl, hts⟩
    · rw [hps] at hl
      cases hl
      cases hu
    · omega
    · rw [hps] at hl
      cases hl
    · rw [hps] at hps'
      cases hps'
      obtain ⟨c, hc, hexplain⟩ := exists_of_mem_left hts hu
      have hsame : r.samePlace (u.inheritAuxiliary p) = true :=
        Position.samePlace_symm (Position.samePlace_trans (samePlace_inheritAuxiliary u p) hur)
      have hrq' := hrq.congr hsame
      have hrmin' : ∀ j < n, ¬s.Reaches j (u.inheritAuxiliary p) q :=
        fun j hj hj' => hrmin j hj (hj'.congr (Position.samePlace_symm hsame))
      -- the open places are farther away than the next place, which is none of them
      have hfar' : ∀ a ∈ p :: above, ¬s.Reaches n a q := by
        intro a ha hreach
        rcases List.mem_cons.mp ha with rfl | ha
        · exact hmin n (Nat.lt_succ_self n) hreach
        · exact hfar a ha (hreach.mono (Nat.le_succ n))
      rw [explain, isOpen_map, if_neg] at hexplain
      · obtain ⟨l, hl, hlq⟩ := ih hexplain (by omega) hrq' hrmin' hfar'
        exact ⟨l, .under hc hl, hlq⟩
      · intro hopen
        obtain ⟨a, ha, hsame'⟩ := List.any_eq_true.mp hopen
        exact hfar' a ha (hrq'.congr hsame')

/-- Leaves are reached within the stages that are left. -/
theorem reaches_of_leaf (ht : resolve s.behind lenient depth tolerant (above.map .ofPosition) p = .ok t)
    {l : Position} (hl : t.Leaf l) : s.Reaches depth p l := by
  induction depth generalizing tolerant above p t with
  | zero =>
    rcases resolve_ok_cases ht with ⟨rfl, _⟩ | ⟨d, _, _, hd, _⟩
    · obtain rfl := (leaf_iff_of_isLeaf rfl).mp hl
      exact .here (Position.samePlace_refl _)
    · cases hd
  | succ depth ih =>
    rcases resolve_ok_cases ht with ⟨rfl, _⟩ | ⟨d, ps, ts, hd, hps, hne, rfl, hts⟩
    · obtain rfl := (leaf_iff_of_isLeaf rfl).mp hl
      exact .here (Position.samePlace_refl _)
    · cases hd
      rcases hl.cases_mk with ⟨rfl, _⟩ | ⟨c, hc, hl⟩
      · exact absurd (List.forall₂_nil_right_iff.mp hts) hne
      · obtain ⟨u, hu, hexplain⟩ := exists_of_mem_right hts hc
        have hstep : s.Behind p (u.inheritAuxiliary p) :=
          ⟨ps, hps, u, hu, Position.samePlace_symm (samePlace_inheritAuxiliary u p)⟩
        refine .step hstep ?_
        unfold explain at hexplain
        split at hexplain
        · cases hexplain
          obtain rfl := (leaf_iff_of_isLeaf rfl).mp hl
          exact .here (Position.samePlace_refl _)
        · exact ih hexplain hl

/-- Among the leaves of a strict resolution is every origin within the depth bound, and every leaf is
within the bound. -/
theorem leaves_of_trace {maxDepth : UInt64} {start : Position}
    (ht : trace s.behind ⟨maxDepth, false⟩ start = .ok t) :
    (∀ q, s.behind q = .ok [] → s.Reaches maxDepth.toNat start q →
      ∃ l ∈ t.leaves, l.samePlace q = true) ∧
    ∀ l ∈ t.leaves, s.Reaches maxDepth.toNat start l := by
  rw [trace_eq] at ht
  refine ⟨fun q hq hr => ?_, fun l hl => reaches_of_leaf ht (leaf_of_mem_leaves hl)⟩
  have hex : ∃ n, s.Reaches n start q := ⟨_, hr⟩
  classical
  have hle := Nat.find_min' hex hr
  obtain ⟨l, hl, hlq⟩ := leaf_of_reaches ht hle hq (Nat.find_spec hex)
    (fun j hj => Nat.find_min hex hj) fun a ha => absurd ha List.not_mem_nil
  obtain ⟨l', hl', hsame⟩ := hl.exists_mem_leaves
  exact ⟨l', hl', Position.samePlace_trans (Position.samePlace_symm hsame) hlq⟩

end Strict

/-- Two generated documents that explain each other, and an authored one behind them. -/
def ring : MemoryStore :=
  let place (name : String) : Pointer := ⟨[.key name]⟩
  (((default : MemoryStore).putMappings ⟨"a"⟩
    [⟨place "x", place "y", ⟨"b"⟩, none, false⟩, ⟨place "x", place "z", ⟨"c"⟩, none, false⟩]).putMappings
    ⟨"b"⟩ [⟨place "y", place "x", ⟨"a"⟩, none, false⟩]).putTree ⟨"c"⟩ .null

theorem leaves_of_trace_ring : ∃ t,
    trace ring.behind ⟨8, false⟩ ⟨⟨"a"⟩, ⟨[.key "x"]⟩, none⟩ = .ok t ∧ t.leaves.length = 2 ∧
      ∃ l ∈ t.leaves, l.samePlace ⟨⟨"c"⟩, ⟨[.key "z"]⟩, none⟩ = true := by
  have hcount : (match trace ring.behind ⟨8, false⟩ ⟨⟨"a"⟩, ⟨[.key "x"]⟩, none⟩ with
      | .ok t => t.leaves.length
      | .error _ => 0) = 2 := by decide +kernel
  have hbehind : ring.Behind ⟨⟨"a"⟩, ⟨[.key "x"]⟩, none⟩ ⟨⟨"c"⟩, ⟨[.key "z"]⟩, none⟩ :=
    ⟨_, rfl, _, List.mem_cons_of_mem _ List.mem_cons_self, by decide +kernel⟩
  cases ht : trace ring.behind ⟨8, false⟩ ⟨⟨"a"⟩, ⟨[.key "x"]⟩, none⟩ with
  | error e =>
    rw [ht] at hcount
    cases hcount
  | ok t =>
    rw [ht] at hcount
    refine ⟨t, rfl, hcount, (leaves_of_trace ht).1 _ (by decide +kernel) ?_⟩
    exact .step hbehind (.here (Position.samePlace_refl _))

end MemoryStore

end Lineage
