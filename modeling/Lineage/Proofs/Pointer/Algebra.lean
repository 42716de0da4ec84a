import Lineage.Proofs.Pointer.Text
import Lineage.Proofs.Provenance.Ancestors
import Lineage.Proofs.Tree.Growth

/-! The algebra of pointers. A pointer can be looked at as a list of tokens, as a text, and as a way down in
a tree. Joining puts one after the other in each of the three views, and what is below an ancestor is what
joining has to add to the ancestor again. In texts an ancestor shows as a beginning that ends at a slash:
a token that has been cut short is no ancestor, and an escaped slash ends no token. -/

namespace Lineage

namespace Pointer

variable {p q r : Pointer} {ps qs : List (List Char)}

theorem joinSlashes_append (ps qs : List (List Char)) :
    joinSlashes (ps ++ qs) = joinSlashes ps ++ joinSlashes qs := List.flatMap_append

/-- Pieces without slashes are read off their text. -/
theorem joinSlashes_inj (hps : ∀ piece ∈ ps, '/' ∉ piece) (hqs : ∀ piece ∈ qs, '/' ∉ piece) :
    joinSlashes ps = joinSlashes qs ↔ ps = qs := by
  refine ⟨fun h => ?_, fun h => by rw [h]⟩
  cases ps with
  | nil =>
    cases qs with
    | nil => rfl
    | cons q qs => cases h
  | cons p ps =>
    cases qs with
    | nil => cases h
    | cons q qs =>
      rw [joinSlashes_cons, joinSlashes_cons, List.cons.injEq] at h
      have hsplit := congrArg splitSlashes h.2
      rw [splitSlashes_join hps, splitSlashes_join hqs, Prod.mk.injEq] at hsplit
      rw [hsplit.1, hsplit.2]

/-- A text goes on with a slash exactly where another piece begins. -/
theorem joinSlashes_prefix_iff (hps : ∀ piece ∈ ps, '/' ∉ piece)
    (hqs : ∀ piece ∈ qs, '/' ∉ piece) :
    joinSlashes ps = joinSlashes qs ∨ joinSlashes qs ++ ['/'] <+: joinSlashes ps ↔ qs <+: ps := by
  constructor
  · rintro (heq | ⟨tail, htail⟩)
    · have hsame := (joinSlashes_inj hps hqs).mp heq
      exact hsame ▸ List.prefix_refl _
    · -- what follows is the text of pieces in turn
      rw [List.append_assoc] at htail
      obtain ⟨rest, hrest, hnone⟩ :=
        exists_pieces_iff.mpr (Or.inr (rfl : (['/'] ++ tail).head? = some '/'))
      rw [hrest, ← joinSlashes_append] at htail
      have hboth : ∀ piece ∈ qs ++ rest, '/' ∉ piece := fun piece hpiece =>
        (List.mem_append.mp hpiece).elim (hqs piece) (hnone piece)
      exact ⟨rest, (joinSlashes_inj hboth hps).mp htail⟩
  · rintro ⟨_ | ⟨piece, rest⟩, rfl⟩
    · exact .inl (by rw [List.append_nil])
    · refine .inr ⟨piece ++ joinSlashes rest, ?_⟩
      rw [joinSlashes_append, joinSlashes_cons, List.append_assoc, List.singleton_append]

theorem escape_injective : Function.Injective fun t : String => escape t.toList := by
  intro s t h
  have hread := congrArg unescape? h
  simp only [unescape?_escape, Option.some.injEq] at hread
  exact String.toList_inj.mp hread

theorem escaped_prefix_iff : q.escaped <+: p.escaped ↔ q.tokens <+: p.tokens :=
  List.prefix_map_iff_of_injective escape_injective

/-- An ancestor shows in the text: it is the whole text, or the text goes on with a slash. -/
theorem startsWith_iff_render : p.startsWith q = true ↔
    p.render = q.render ∨ q.render.toList ++ ['/'] <+: p.render.toList := by
  rw [startsWith_iff, ← escaped_prefix_iff,
    ← joinSlashes_prefix_iff p.slash_notMem_escaped q.slash_notMem_escaped, toList_render,
    toList_render, ← String.toList_inj, toList_render, toList_render]

/-- Tokens that begin alike are not above one another. -/
example : (startsWith ⟨[.key "ab"]⟩ ⟨[.key "a"]⟩, startsWith ⟨[.key "a/b"]⟩ ⟨[.key "a"]⟩,
    startsWith ⟨[.key "7", .key ""]⟩ ⟨[.index 7]⟩) = (false, false, true) := by decide +kernel

theorem render_join (p q : Pointer) : (p.join q).render = p.render ++ q.render := by
  rw [render, join, List.flatMap_append, String.ofList_append]
  rfl

/-- What is below an ancestor is what has to be joined to it. -/
theorem exists_below?_iff :
    (∃ s, p.below? q = some s ∧ (s == r) = true) ↔ (p == q.join r) = true := by
  rw [beq_iff, tokens_join]
  constructor
  · rintro ⟨s, hs, hsr⟩
    rw [tokens_of_below? hs, beq_iff.mp hsr]
  · intro hp
    obtain ⟨s, hs⟩ := Option.isSome_iff_exists.mp (isSome_below?_iff.mpr ⟨r.tokens, hp.symm⟩)
    refine ⟨s, hs, beq_iff.mpr ?_⟩
    rwa [tokens_of_below? hs, List.append_cancel_left_eq] at hp

theorem resolve?_join (h : Heap) (t : Tree) (p q : Pointer) :
    h.resolve? t (p.join q) = (h.resolve? t p).bind fun u => h.resolve? u q :=
  h.follow?_append t p.segments q.segments

/-- The views of a pointer agree. Stripping an ancestor undoes joining; there is something to strip exactly
where the pointer starts with the ancestor, which can be told from the texts; and a joined pointer has the
texts of both behind one another and leads where the second leads from the end of the first. -/
theorem views_agree (p q r : Pointer) :
    ((∃ s, p.below? q = some s ∧ (s == r) = true) ↔ (p == q.join r) = true) ∧
    (p.startsWith q = true ↔ (p.below? q).isSome = true) ∧
    (p.startsWith q = true ↔
      p.render = q.render ∨ q.render.toList ++ ['/'] <+: p.render.toList) ∧
    (p.join q).render = p.render ++ q.render ∧
    ∀ (h : Heap) (t : Tree),
      h.resolve? t (p.join q) = (h.resolve? t p).bind fun u => h.resolve? u q :=
  ⟨exists_below?_iff, startsWith_iff.trans isSome_below?_iff.symm, startsWith_iff_render,
    render_join p q, fun h t => resolve?_join h t p q⟩

end Pointer

end Lineage
