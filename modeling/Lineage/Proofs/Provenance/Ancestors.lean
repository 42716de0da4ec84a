import Lineage.Provenance.Mapping

/-! The position behind a pointer. Mapped ancestors of one pointer are prefixes of one path, so where
no two mappings generate one place the deepest of them is alone, and it alone speaks for the pointer.
-/

namespace Lineage

/-- Of elements that are pairwise related, a function that is defined on no two related ones keeps
one at most. -/
theorem filterMap_eq_singleton {α β : Type} {r : α → α → Prop} {f : α → Option β} {xs : List α}
    (hp : xs.Pairwise r)
    (hr : ∀ y ∈ xs, ∀ z ∈ xs, (f y).isSome → (f z).isSome → ¬r y z) {x : α} {b : β} (hx : x ∈ xs)
    (hf : f x = some b) : xs.filterMap f = [b] := by
  induction xs with
  | nil => cases hx
  | cons a rest ih =>
    obtain ⟨hhead, htail⟩ := List.pairwise_cons.mp hp
    have hsome : (f x).isSome := by rw [hf]; rfl
    rcases List.mem_cons.mp hx with rfl | hx
    · have hnone : rest.filterMap f = [] := by
        rw [List.filterMap_eq_nil_iff]
        intro z hz
        rw [← Option.not_isSome_iff_eq_none]
        exact fun hz' => hr x (by simp) z (by simp [hz]) hsome hz' (hhead z hz)
      rw [List.filterMap_cons_some hf, hnone]
    · have hnone : f a = none := by
        rw [← Option.not_isSome_iff_eq_none]
        exact fun ha => hr a (by simp) x (by simp [hx]) ha hsome (hhead x hx)
      rw [List.filterMap_cons_none hnone]
      refine ih htail (fun y hy z hz => ?_) hx
      exact hr y (List.mem_cons_of_mem _ hy) z (List.mem_cons_of_mem _ hz)

namespace Position

variable {a b c : Position}

theorem samePlace_iff :
    a.samePlace b = true ↔ a.source = b.source ∧ a.pointer.tokens = b.pointer.tokens := by
  rw [samePlace, Bool.and_eq_true, beq_iff_eq, Pointer.beq_iff]

theorem samePlace_refl (a : Position) : a.samePlace a = true := samePlace_iff.mpr ⟨rfl, rfl⟩

theorem samePlace_symm (h : a.samePlace b = true) : b.samePlace a = true :=
  samePlace_iff.mpr ⟨(samePlace_iff.mp h).1.symm, (samePlace_iff.mp h).2.symm⟩

theorem samePlace_comm (a b : Position) : a.samePlace b = b.samePlace a :=
  Bool.eq_iff_iff.mpr ⟨samePlace_symm, samePlace_symm⟩

theorem samePlace_trans (h₁ : a.samePlace b = true) (h₂ : b.samePlace c = true) :
    a.samePlace c = true := by
  rw [samePlace_iff] at h₁ h₂ ⊢
  exact ⟨h₁.1.trans h₂.1, h₁.2.trans h₂.2⟩

theorem samePlace_of_beq (h : (a == b) = true) : a.samePlace b = true := by
  change (a.samePlace b && a.auxiliary == b.auxiliary) = true at h
  exact (Bool.and_eq_true _ _ ▸ h).1

theorem beq_refl (a : Position) : (a == a) = true := by
  change (a.samePlace a && a.auxiliary == a.auxiliary) = true
  rw [samePlace_refl, beq_self_eq_true]
  rfl

end Position

namespace Pointer

theorem length_tokens (p : Pointer) : p.tokens.length = p.length := List.length_map _

theorem isSome_remainder? (ss ts : List Segment) :
    (remainder? ss ts).isSome = ss.isPrefixOf ts := by
  induction ss generalizing ts with
  | nil => simp [remainder?]
  | cons s ss ih =>
    cases ts with
    | nil => rfl
    | cons t ts =>
      rw [remainder?, List.isPrefixOf]
      cases s == t with
      | false => rfl
      | true => exact ih ts

/-- There is a way down from the ancestors. -/
theorem isSome_below?_iff {p q : Pointer} : (p.below? q).isSome ↔ q.tokens <+: p.tokens := by
  rw [below?, Option.isSome_map, isSome_remainder?]
  exact isPrefixOf_iff

end Pointer

namespace Pointer

theorem tokens_of_remainder? {ss ts us : List Segment} (h : remainder? ss ts = some us) :
    ts.map Segment.token = ss.map Segment.token ++ us.map Segment.token := by
  induction ss generalizing ts with
  | nil =>
    cases h
    rfl
  | cons s ss ih =>
    cases ts with
    | nil => cases h
    | cons t ts =>
      rw [remainder?] at h
      split at h
      · rename_i hst
        rw [List.map_cons, List.map_cons, List.cons_append, ih h, Segment.beq_iff.mp hst]
      · cases h

/-- The way down from an ancestor leads to the pointer. -/
theorem tokens_of_below? {p q rest : Pointer} (h : p.below? q = some rest) :
    p.tokens = q.tokens ++ rest.tokens := by
  obtain ⟨us, hus, rfl⟩ := Option.map_eq_some_iff.mp h
  exact tokens_of_remainder? hus

end Pointer

/-- A mapped ancestor is as deep as the deepest one, or less. -/
theorem deepestAncestor_isSome {ms : List Mapping} {p : Pointer} {m : Mapping} (hm : m ∈ ms)
    (hpre : m.generated.tokens <+: p.tokens) : (deepestAncestor ms p).isSome := by
  have hmem : m ∈ ms.filter fun m => p.startsWith m.generated :=
    List.mem_filter.mpr ⟨hm, Pointer.startsWith_iff.mpr hpre⟩
  exact List.isSome_max?_of_mem (List.mem_map_of_mem hmem)

theorem exists_of_deepestAncestor {ms : List Mapping} {p : Pointer} {depth : Nat}
    (h : deepestAncestor ms p = some depth) :
    ∃ m ∈ ms, m.generated.tokens <+: p.tokens ∧ m.generated.length = depth := by
  obtain ⟨m, hm, hlen⟩ := List.mem_map.mp (List.max?_mem h)
  obtain ⟨hmem, hstart⟩ := List.mem_filter.mp hm
  exact ⟨m, hmem, Pointer.startsWith_iff.mp hstart, hlen⟩

/-- The positions that the mappings of a pointer, or else its deepest mapped ancestors, speak for, with
repetitions. -/
def explanations (ms : List Mapping) (p : Pointer) : List Position :=
  let exact := ms.filter (·.generated == p)
  if exact.isEmpty then
    match deepestAncestor ms p with
    | none => []
    | some depth =>
      (ms.filter (·.generated.length == depth)).filterMap fun m =>
        (p.below? m.generated).map m.positionBelow
  else exact.map Mapping.position

theorem positionsBehind_eq (ms : List Mapping) (p : Pointer) :
    positionsBehind ms p = distinctBy (· == ·) (explanations ms p) := rfl

/-- A position behind a pointer is as far below the origin of some mapping as the pointer is below what
the mapping generates. -/
theorem exists_of_mem_positionsBehind {ms : List Mapping} {p : Pointer} {u : Position}
    (hu : u ∈ positionsBehind ms p) :
    ∃ m ∈ ms, ∃ rest, p.tokens = m.generated.tokens ++ rest ∧ u.source = m.source ∧
      u.auxiliary = m.auxiliary ∧ u.pointer.tokens = m.origin.tokens ++ rest := by
  have hmem : u ∈ explanations ms p := (distinctFrom_sublist _ _ _).subset hu
  simp only [explanations] at hmem
  split at hmem
  · split at hmem
    · cases hmem
    · obtain ⟨m, hm, hbelow⟩ := List.mem_filterMap.mp hmem
      obtain ⟨rest, hrest, rfl⟩ := Option.map_eq_some_iff.mp hbelow
      exact ⟨m, (List.mem_filter.mp hm).1, rest.tokens, Pointer.tokens_of_below? hrest, rfl, rfl,
        Pointer.tokens_join _ _⟩
  · obtain ⟨m, hm, rfl⟩ := List.mem_map.mp hmem
    obtain ⟨hm, heq⟩ := List.mem_filter.mp hm
    refine ⟨m, hm, [], ?_, rfl, rfl, (List.append_nil _).symm⟩
    rw [List.append_nil, Pointer.beq_iff.mp heq]

/-- Pointers with the same tokens have the same mappings and ancestors, and what speaks for one of
them speaks for the other. -/
theorem exists_samePlace_explanation {ms : List Mapping} {p p' : Pointer} (hp : p.tokens = p'.tokens)
    {u : Position} (hu : u ∈ explanations ms p) :
    ∃ u' ∈ explanations ms p', u'.samePlace u = true := by
  have hexact : ∀ g : Pointer, (g == p) = (g == p') := by
    intro g
    rw [Bool.eq_iff_iff, Pointer.beq_iff, Pointer.beq_iff, hp]
  have hdeepest : deepestAncestor ms p = deepestAncestor ms p' := by
    have hstarts : ∀ m : Mapping, p.startsWith m.generated = p'.startsWith m.generated := by
      intro m
      rw [Bool.eq_iff_iff, Pointer.startsWith_iff, Pointer.startsWith_iff, hp]
    simp only [deepestAncestor, hstarts]
  unfold explanations at hu ⊢
  simp only [hexact, hdeepest] at hu
  split at hu
  · split at hu
    · cases hu
    · rename_i hempty _ depth hdepth
      obtain ⟨m, hm, hrest⟩ := List.mem_filterMap.mp hu
      obtain ⟨rest, hbelow, rfl⟩ := Option.map_eq_some_iff.mp hrest
      have htokens := Pointer.tokens_of_below? hbelow
      obtain ⟨rest', hbelow'⟩ := Option.isSome_iff_exists.mp
        (Pointer.isSome_below?_iff.mpr ⟨rest.tokens, htokens.symm.trans hp⟩)
      refine ⟨m.positionBelow rest', ?_, Position.samePlace_iff.mpr ⟨rfl, ?_⟩⟩
      · rw [if_pos hempty]
        exact List.mem_filterMap.mpr ⟨m, hm, by rw [hbelow']; rfl⟩
      · have htokens' := Pointer.tokens_of_below? hbelow'
        rw [← hp, htokens, List.append_cancel_left_eq] at htokens'
        simp [Mapping.positionBelow, htokens']
  · rename_i hexists
    refine ⟨u, ?_, Position.samePlace_iff.mpr ⟨rfl, rfl⟩⟩
    rwa [if_neg hexists]

theorem exists_samePlace_behind {ms : List Mapping} {p p' : Pointer} (hp : p.tokens = p'.tokens)
    {u : Position} (hu : u ∈ positionsBehind ms p) :
    ∃ u' ∈ positionsBehind ms p', u'.samePlace u = true := by
  have hmem : u ∈ explanations ms p := (distinctFrom_sublist _ _ _).subset hu
  obtain ⟨v, hv, hvu⟩ := exists_samePlace_explanation hp hmem
  obtain ⟨u', hu', hu'v⟩ := exists_same_of_mem (· == ·) Position.beq_refl [] _ hv
  exact ⟨u', hu', Position.samePlace_trans (Position.samePlace_of_beq hu'v) hvu⟩

section Distinct

variable {ms : List Mapping} {p : Pointer}
  (hd : ms.Pairwise fun m n => m.generated.tokens ≠ n.generated.tokens)
include hd

theorem explanations_of_exact {m : Mapping} (hm : m ∈ ms) (htok : m.generated.tokens = p.tokens) :
    explanations ms p = [m.position] := by
  have hmem : m ∈ ms.filter (·.generated == p) :=
    List.mem_filter.mpr ⟨hm, Pointer.beq_iff.mpr htok⟩
  have hexact : ∀ y ∈ ms.filter (·.generated == p), y.generated.tokens = p.tokens :=
    fun y hy => Pointer.beq_iff.mp (List.mem_filter.mp hy).2
  rw [explanations, if_neg, ← List.filterMap_eq_map]
  · refine filterMap_eq_singleton (hd.filter _) (fun y hy z hz _ _ hne => ?_) hmem rfl
    exact hne ((hexact y hy).trans (hexact z hz).symm)
  · rw [List.isEmpty_iff]
    exact List.ne_nil_of_mem hmem

theorem explanations_of_deepest {depth : Nat} (hnone : ∀ m ∈ ms, m.generated.tokens ≠ p.tokens)
    (hdepth : deepestAncestor ms p = some depth) : ∃ q, explanations ms p = [q] := by
  obtain ⟨m, hm, hpre, hlen⟩ := exists_of_deepestAncestor hdepth
  obtain ⟨rest, hrest⟩ := Option.isSome_iff_exists.mp (Pointer.isSome_below?_iff.mpr hpre)
  refine ⟨m.positionBelow rest, ?_⟩
  rw [explanations, if_pos, hdepth]
  · refine filterMap_eq_singleton (hd.filter _) ?_
      (List.mem_filter.mpr ⟨hm, beq_iff_eq.mpr hlen⟩) (by rw [hrest]; rfl)
    -- ancestors of one depth are one prefix of the path
    intro y hy z hz hypre hzpre hne
    rw [Option.isSome_map, Pointer.isSome_below?_iff] at hypre hzpre
    have hylen := beq_iff_eq.mp (List.mem_filter.mp hy).2
    have hzlen := beq_iff_eq.mp (List.mem_filter.mp hz).2
    rw [← Pointer.length_tokens] at hylen hzlen
    refine hne ?_
    rw [List.prefix_iff_eq_take.mp hypre, List.prefix_iff_eq_take.mp hzpre, hylen, hzlen]
  · rw [List.isEmpty_iff, List.filter_eq_nil_iff]
    exact fun m hm heq => hnone m hm (Pointer.beq_iff.mp heq)

/-- Where no two mappings generate one place, exactly one position is behind every pointer that is
mapped or has a mapped ancestor. -/
theorem exists_positionsBehind_eq {m : Mapping} (hm : m ∈ ms)
    (hpre : m.generated.tokens <+: p.tokens) : ∃ q, positionsBehind ms p = [q] := by
  have hone : ∃ q, explanations ms p = [q] := by
    by_cases hexact : ∃ n ∈ ms, n.generated.tokens = p.tokens
    · obtain ⟨n, hn, htok⟩ := hexact
      exact ⟨n.position, explanations_of_exact hd hn htok⟩
    · obtain ⟨depth, hdepth⟩ := Option.isSome_iff_exists.mp (deepestAncestor_isSome hm hpre)
      exact explanations_of_deepest hd (fun n hn htok => hexact ⟨n, hn, htok⟩) hdepth
  obtain ⟨q, hq⟩ := hone
  exact ⟨q, by rw [positionsBehind_eq, hq]; rfl⟩

end Distinct

end Lineage
