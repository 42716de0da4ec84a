import Lineage.Proofs.Provenance.Ancestors

/-! One rule for the positions behind a pointer. Of the mapped places on the path to the pointer the
longest one speaks for it: each of its mappings, in recording order, gives the place where the rest of the
pointer lies below its origin, and what repeats an earlier position is dropped. That the pointer itself is
mapped is the case in which nothing is left of it, so mappings of the pointer itself need no rule of their
own, and mappings of places off the path are immaterial.
-/

namespace Lineage

/-- Dropping what repeats an earlier element is what the library calls erasing duplicates, for a test that
does not care which element comes first. -/
theorem distinctFrom_eq_eraseDups {α : Type} {same : α → α → Bool}
    (hcomm : ∀ x y, same x y = same y x) (seen xs : List α) :
    List.eraseDupsBy.loop same xs seen.reverse = seen ++ distinctFrom same seen xs := by
  induction xs generalizing seen with
  | nil => rw [List.eraseDupsBy.loop, List.reverse_reverse, distinctFrom, List.append_nil]
  | cons x rest ih =>
    have hany : seen.reverse.any (same x) = seen.any (same · x) := by
      rw [List.any_reverse]
      exact congrArg seen.any (funext fun y => hcomm x y)
    rw [List.eraseDupsBy.loop, distinctFrom, hany]
    cases seen.any (same · x) with
    | true => exact ih seen
    | false =>
      have htail := ih (seen ++ [x])
      rw [List.reverse_append] at htail
      refine htail.trans ?_
      rw [List.append_assoc]
      rfl

theorem Position.beq_comm (a b : Position) : (a == b) = (b == a) := by
  change (a.samePlace b && a.auxiliary == b.auxiliary) = (b.samePlace a && b.auxiliary == a.auxiliary)
  rw [samePlace_comm, BEq.comm (a := a.auxiliary)]

theorem distinctBy_eq_eraseDups (ps : List Position) : distinctBy (· == ·) ps = ps.eraseDups :=
  (distinctFrom_eq_eraseDups Position.beq_comm [] ps).symm

namespace Pointer

/-- Of the lists as long as the beginning of another one, only that beginning leaves a remainder. -/
theorem remainder?_append {ss ts : List Segment} (hlength : ss.length = ts.length)
    (us : List Segment) : remainder? ss (ts ++ us) = if ss == ts then some us else none := by
  induction ss generalizing ts with
  | nil => rw [List.eq_nil_of_length_eq_zero hlength.symm]; rfl
  | cons s ss ih =>
    cases ts with
    | nil => cases hlength
    | cons t ts =>
      rw [List.cons_append, remainder?, ih (Nat.succ.inj hlength), List.cons_beq_cons]
      cases s == t <;> rfl

/-- The way down from places as long as an ancestor is the way down from that ancestor, or there is none. -/
theorem below?_join {g q : Pointer} (hlength : g.length = q.length) (rest : Pointer) :
    (q.join rest).below? g = if g == q then some rest else none := by
  change (remainder? g.segments (q.segments ++ rest.segments)).map Pointer.mk = _
  rw [remainder?_append hlength]
  change _ = if g.segments == q.segments then some rest else none
  split <;> rfl

theorem length_eq_of_beq {p q : Pointer} (h : (p == q) = true) : p.length = q.length := by
  rw [← length_tokens, ← length_tokens, beq_iff.mp h]

end Pointer

/-- The pointer is `q` with `rest` below it, some mapping generates `q`, and none generates a longer place
on the path to the pointer. -/
structure LongestMapped (ms : List Mapping) (p q rest : Pointer) : Prop where
  split : p = q.join rest
  mapped : ∃ m ∈ ms, (m.generated == q) = true
  longest : ∀ m ∈ ms, m.generated.tokens <+: p.tokens → m.generated.length ≤ q.length

/-- What the deepest mapped ancestors of a pointer say, the pointer itself among them. -/
def ancestral (ms : List Mapping) (p : Pointer) : List Position :=
  match deepestAncestor ms p with
  | none => []
  | some depth =>
    (ms.filter (·.generated.length == depth)).filterMap fun m =>
      (p.below? m.generated).map m.positionBelow

variable {ms : List Mapping} {p q rest : Pointer}

theorem le_of_deepestAncestor {depth : Nat} (h : deepestAncestor ms p = some depth) {m : Mapping}
    (hm : m ∈ ms) (hpre : m.generated.tokens <+: p.tokens) : m.generated.length ≤ depth :=
  (List.max?_eq_some_iff.mp h).2 _
    (List.mem_map_of_mem (List.mem_filter.mpr ⟨hm, Pointer.startsWith_iff.mpr hpre⟩))

theorem deepestAncestor_eq_none (hnone : ∀ m ∈ ms, ¬m.generated.tokens <+: p.tokens) :
    deepestAncestor ms p = none := by
  cases hdepth : deepestAncestor ms p with
  | none => rfl
  | some depth =>
    obtain ⟨m, hm, hpre, _⟩ := exists_of_deepestAncestor hdepth
    exact absurd hpre (hnone m hm)

namespace LongestMapped

theorem on_path (hq : LongestMapped ms p q rest) {g : Pointer} (hg : (g == q) = true) :
    g.tokens <+: p.tokens := by
  rw [hq.split, Pointer.tokens_join, Pointer.beq_iff.mp hg]
  exact List.prefix_append _ _

theorem deepestAncestor_eq (hq : LongestMapped ms p q rest) :
    deepestAncestor ms p = some q.length := by
  obtain ⟨m, hm, hmq⟩ := hq.mapped
  have hpre := hq.on_path hmq
  obtain ⟨depth, hdepth⟩ := Option.isSome_iff_exists.mp (deepestAncestor_isSome hm hpre)
  obtain ⟨n, hn, hnpre, hlength⟩ := exists_of_deepestAncestor hdepth
  have hle := le_of_deepestAncestor hdepth hm hpre
  have hge := hq.longest n hn hnpre
  rw [Pointer.length_eq_of_beq hmq] at hle
  rw [hdepth]
  congr 1
  omega

/-- The mappings of the longest mapped place speak for the pointer, and no others. -/
theorem ancestral_eq (hq : LongestMapped ms p q rest) :
    ancestral ms p = (ms.filter (·.generated == q)).map (·.positionBelow rest) := by
  rw [ancestral, hq.deepestAncestor_eq]
  dsimp only
  rw [List.filterMap_filter, ← List.filterMap_eq_map, List.filterMap_filter]
  refine congrArg (List.filterMap · ms) (funext fun m => ?_)
  by_cases hlength : m.generated.length = q.length
  · rw [if_pos (beq_iff_eq.mpr hlength), hq.split, Pointer.below?_join hlength]
    cases m.generated == q <;> rfl
  · have hne : ¬(m.generated == q) = true := fun heq => hlength (Pointer.length_eq_of_beq heq)
    rw [if_neg (fun heq => hlength (beq_iff_eq.mp heq)), if_neg hne]

end LongestMapped

/-- A mapped pointer is itself the longest mapped place on its path. -/
theorem longestMapped_self {m : Mapping} (hm : m ∈ ms) (heq : (m.generated == p) = true) :
    LongestMapped ms p p .root := by
  refine ⟨?_, ⟨m, hm, heq⟩, fun n _ hpre => ?_⟩
  · rw [Pointer.join, Pointer.root, List.append_nil]
  · rw [← Pointer.length_tokens, ← Pointer.length_tokens]
    exact hpre.length_le

/-- Where some place on the path is mapped there is a longest one. -/
theorem exists_longestMapped {m : Mapping} (hm : m ∈ ms) (hpre : m.generated.tokens <+: p.tokens) :
    ∃ q rest, LongestMapped ms p q rest := by
  obtain ⟨depth, hdepth⟩ := Option.isSome_iff_exists.mp (deepestAncestor_isSome hm hpre)
  obtain ⟨n, hn, hnpre, hlength⟩ := exists_of_deepestAncestor hdepth
  have hle : depth ≤ p.length := by
    rw [← hlength, ← Pointer.length_tokens, ← Pointer.length_tokens]
    exact hnpre.length_le
  refine ⟨⟨p.segments.take depth⟩, ⟨p.segments.drop depth⟩, ?_, ⟨n, hn, ?_⟩, fun k hk hkpre => ?_⟩
  · rw [Pointer.join, List.take_append_drop]
  · rw [Pointer.beq_iff, List.prefix_iff_eq_take.mp hnpre, Pointer.length_tokens, hlength]
    exact List.map_take.symm
  · have hbound := le_of_deepestAncestor hdepth hk hkpre
    rwa [← List.length_take_of_le hle] at hbound

/-- What the mappings of a pointer itself say is what its deepest mapped ancestors say, since it is the
deepest of them. -/
theorem explanations_eq_ancestral (ms : List Mapping) (p : Pointer) :
    explanations ms p = ancestral ms p := by
  by_cases hexact : ms.filter (·.generated == p) = []
  · rw [explanations, if_pos (List.isEmpty_iff.mpr hexact)]
    rfl
  · obtain ⟨m, hmem⟩ := List.exists_mem_of_ne_nil _ hexact
    obtain ⟨hm, heq⟩ := List.mem_filter.mp hmem
    rw [explanations, if_neg (fun hempty => hexact (List.isEmpty_iff.mp hempty)),
      (longestMapped_self hm heq).ancestral_eq]
    refine List.map_congr_left fun n _ => ?_
    rw [Mapping.positionBelow, Pointer.join, Pointer.root, List.append_nil]
    rfl

theorem positionsBehind_eq_ancestral (ms : List Mapping) (p : Pointer) :
    positionsBehind ms p = (ancestral ms p).eraseDups := by
  rw [positionsBehind_eq, explanations_eq_ancestral, distinctBy_eq_eraseDups]

theorem LongestMapped.positionsBehind_eq (hq : LongestMapped ms p q rest) :
    positionsBehind ms p = ((ms.filter (·.generated == q)).map (·.positionBelow rest)).eraseDups := by
  rw [positionsBehind_eq_ancestral, hq.ancestral_eq]

theorem positionsBehind_eq_nil (hnone : ∀ m ∈ ms, ¬m.generated.tokens <+: p.tokens) :
    positionsBehind ms p = [] := by
  rw [positionsBehind_eq_ancestral, ancestral, deepestAncestor_eq_none hnone]
  rfl

/-- The longest mapped place is the same when only places on the path are considered. -/
theorem LongestMapped.filter (hq : LongestMapped ms p q rest) :
    LongestMapped (ms.filter fun m => p.startsWith m.generated) p q rest := by
  obtain ⟨m, hm, hmq⟩ := hq.mapped
  have hstarts := Pointer.startsWith_iff.mpr (hq.on_path hmq)
  exact ⟨hq.split, ⟨m, List.mem_filter.mpr ⟨hm, hstarts⟩, hmq⟩,
    fun n hn => hq.longest n (List.mem_filter.mp hn).1⟩

/-- Mappings of places off the path say nothing. -/
theorem positionsBehind_filter (ms : List Mapping) (p : Pointer) :
    positionsBehind (ms.filter fun m => p.startsWith m.generated) p = positionsBehind ms p := by
  by_cases hsome : ∃ m ∈ ms, m.generated.tokens <+: p.tokens
  · obtain ⟨m, hm, hpre⟩ := hsome
    obtain ⟨q, rest, hq⟩ := exists_longestMapped hm hpre
    have hsame : (ms.filter fun m => p.startsWith m.generated).filter (·.generated == q) =
        ms.filter (·.generated == q) := by
      rw [List.filter_filter]
      refine List.filter_congr fun n _ => ?_
      cases hnq : n.generated == q with
      | false => rfl
      | true => rw [Pointer.startsWith_iff.mpr (hq.on_path hnq)]; rfl
    rw [hq.filter.positionsBehind_eq, hq.positionsBehind_eq, hsame]
  · have hnone : ∀ m ∈ ms, ¬m.generated.tokens <+: p.tokens := fun m hm hpre => hsome ⟨m, hm, hpre⟩
    rw [positionsBehind_eq_nil hnone, positionsBehind_eq_nil fun m hm => hnone m (List.mem_filter.mp hm).1]

theorem positionsBehind_append (ms : List Mapping) {more : List Mapping}
    (hmore : ∀ m ∈ more, ¬m.generated.tokens <+: p.tokens) :
    positionsBehind (ms ++ more) p = positionsBehind ms p := by
  have hoff : more.filter (fun m => p.startsWith m.generated) = [] := by
    rw [List.filter_eq_nil_iff]
    exact fun m hm hstarts => hmore m hm (Pointer.startsWith_iff.mp hstarts)
  rw [← positionsBehind_filter, List.filter_append, hoff, List.append_nil, positionsBehind_filter]

/-- Mappings of shorter places are shadowed by those of a longer one on the path. -/
theorem positionsBehind_append_of_shorter {m : Mapping} (hm : m ∈ ms)
    (hpre : m.generated.tokens <+: p.tokens) {shorter : List Mapping}
    (hshorter : ∀ n ∈ shorter, n.generated.tokens <+: p.tokens →
      n.generated.length < m.generated.length) :
    positionsBehind (shorter ++ ms) p = positionsBehind ms p := by
  obtain ⟨q, rest, hq⟩ := exists_longestMapped hm hpre
  have hlt : ∀ n ∈ shorter, n.generated.tokens <+: p.tokens → n.generated.length < q.length :=
    fun n hn hnpre => Nat.lt_of_lt_of_le (hshorter n hn hnpre) (hq.longest m hm hpre)
  have happend : LongestMapped (shorter ++ ms) p q rest := by
    obtain ⟨n, hn, hnq⟩ := hq.mapped
    refine ⟨hq.split, ⟨n, List.mem_append_right _ hn, hnq⟩, fun k hk hkpre => ?_⟩
    rcases List.mem_append.mp hk with hk | hk
    · exact Nat.le_of_lt (hlt k hk hkpre)
    · exact hq.longest k hk hkpre
  have hnone : shorter.filter (·.generated == q) = [] := by
    rw [List.filter_eq_nil_iff]
    intro n hn hnq
    have := hlt n hn (hq.on_path hnq)
    rw [Pointer.length_eq_of_beq hnq] at this
    exact Nat.lt_irrefl _ this
  rw [happend.positionsBehind_eq, hq.positionsBehind_eq, List.filter_append, hnone, List.nil_append]

/-- The positions behind a pointer are none when no place on its path is mapped, and else what the
mappings of the longest mapped place say, in recording order and without repetitions. The rule for mapped
pointers is that of their ancestors, and mappings of places off the path may be added at will. -/
theorem positionsBehind_longest (ms : List Mapping) (p : Pointer) :
    ((∀ m ∈ ms, ¬m.generated.tokens <+: p.tokens) ∧ positionsBehind ms p = [] ∨
      ∃ q rest, LongestMapped ms p q rest ∧ positionsBehind ms p =
        ((ms.filter (·.generated == q)).map fun m =>
          ⟨m.source, m.origin.join rest, m.auxiliary⟩).eraseDups) ∧
    positionsBehind ms p = (ancestral ms p).eraseDups ∧
    ∀ more : List Mapping, (∀ m ∈ more, ¬m.generated.tokens <+: p.tokens) →
      positionsBehind (ms ++ more) p = positionsBehind ms p := by
  refine ⟨?_, positionsBehind_eq_ancestral ms p, fun more hmore => positionsBehind_append ms hmore⟩
  by_cases hsome : ∃ m ∈ ms, m.generated.tokens <+: p.tokens
  · obtain ⟨m, hm, hpre⟩ := hsome
    obtain ⟨q, rest, hq⟩ := exists_longestMapped hm hpre
    exact .inr ⟨q, rest, hq, hq.positionsBehind_eq⟩
  · have hnone : ∀ m ∈ ms, ¬m.generated.tokens <+: p.tokens := fun m hm hpre => hsome ⟨m, hm, hpre⟩
    exact .inl ⟨hnone, positionsBehind_eq_nil hnone⟩

/-- A list that maps the whole document, and one member of it to two places, to one of them twice. -/
def merged : List Mapping :=
  [{ generated := .root, origin := .root, source := ⟨"d1"⟩ },
    { generated := ⟨[.key "m"]⟩, origin := ⟨[.key "a"]⟩, source := ⟨"d1"⟩ },
    { generated := ⟨[.key "m"]⟩, origin := ⟨[.key "b"]⟩, source := ⟨"d2"⟩ },
    { generated := ⟨[.key "m"]⟩, origin := ⟨[.key "a"]⟩, source := ⟨"d1"⟩ }]

/-- Below the member it is the member's mappings that count, and not those of a place beside the path. -/
theorem positionsBehind_longest_merged :
    positionsBehind merged ⟨[.key "m", .index 0]⟩ =
      [⟨⟨"d1"⟩, ⟨[.key "a", .index 0]⟩, none⟩, ⟨⟨"d2"⟩, ⟨[.key "b", .index 0]⟩, none⟩] ∧
    positionsBehind (merged ++ [{ generated := ⟨[.key "m", .index 1]⟩, origin := .root, source := ⟨"d2"⟩ }])
      ⟨[.key "m", .index 0]⟩ = positionsBehind merged ⟨[.key "m", .index 0]⟩ :=
  ⟨by decide +kernel, (positionsBehind_longest merged _).2.2 _ (by decide +kernel)⟩

end Lineage
