import Lineage.Pointer.Text
import Lineage.Proofs.Pointer.Index
import Lineage.Proofs.Supply

/-! The text format of pointers. Between its slashes a text has the escaped tokens of the segments, and
escaping is undone exactly, so a text is read where every tilde in it is an escape and rendering what
was read gives it back. Whichever way the segments of a pointer are spelled, its text is read as the
same pointer, and no other pointer has it. -/

namespace Lineage

/-- No token is lost: where it denotes an index, it is the decimal of the index. -/
theorem Segment.token_ofToken_eq (t : String) : (ofToken t).token = t :=
  token_ofToken t fun _ hn => (readIndex?_eq_some_iff.mp hn).1.symm

namespace Pointer

/-- Every tilde is followed by zero or one. -/
def TildesEscaped (cs : List Char) : Prop :=
  ∀ i : Nat, cs[i]? = some '~' → cs[i + 1]? = some '0' ∨ cs[i + 1]? = some '1'

variable {c : Char} {cs ds rest piece : List Char} {pieces : List (List Char)}

/-- What follows a tilde in an escape. -/
def StartsEscaped (cs : List Char) : Prop := cs.head? = some '0' ∨ cs.head? = some '1'

theorem tildesEscaped_nil : TildesEscaped [] := fun _ h => by simp at h

theorem tildesEscaped_cons :
    TildesEscaped (c :: cs) ↔ (c = '~' → StartsEscaped cs) ∧ TildesEscaped cs := by
  unfold StartsEscaped
  constructor
  · intro h
    refine ⟨fun hc => ?_, fun i hi => by simpa using h (i + 1) (by simpa using hi)⟩
    simpa [List.head?_eq_getElem?] using h 0 (by simp [hc])
  · rintro ⟨hhead, htail⟩ i hi
    cases i with
    | zero => simpa [List.head?_eq_getElem?] using hhead (by simpa using hi)
    | succ i => simpa using htail i (by simpa using hi)

theorem tildesEscaped_cons_of_ne (hc : c ≠ '~') : TildesEscaped (c :: cs) ↔ TildesEscaped cs := by
  rw [tildesEscaped_cons, and_iff_right fun heq => absurd heq hc]

/-- A slash ends an escape, so texts that meet at a slash are escaped each by itself. -/
theorem tildesEscaped_append (hrest : ¬ StartsEscaped rest) :
    TildesEscaped (cs ++ rest) ↔ TildesEscaped cs ∧ TildesEscaped rest := by
  induction cs with
  | nil => simp [tildesEscaped_nil]
  | cons c cs ih =>
    have hstart : StartsEscaped (cs ++ rest) ↔ StartsEscaped cs := by
      cases cs with
      | nil => simpa [StartsEscaped] using hrest
      | cons d ds => simp [StartsEscaped]
    rw [List.cons_append, tildesEscaped_cons, ih, hstart, tildesEscaped_cons, and_assoc]

/-- Exactly the escaped texts are unescaped. -/
theorem isSome_unescape?_iff : (unescape? cs).isSome = true ↔ TildesEscaped cs := by
  fun_induction unescape? cs with
  | case1 => simp [tildesEscaped_nil]
  | case2 rest ih =>
    rw [Option.isSome_map, ih, tildesEscaped_cons, tildesEscaped_cons]
    simp [StartsEscaped]
  | case3 rest ih =>
    rw [Option.isSome_map, ih, tildesEscaped_cons, tildesEscaped_cons]
    simp [StartsEscaped]
  | case4 rest hzero hone =>
    have hnot : ¬ StartsEscaped rest := by
      cases rest with
      | nil => simp [StartsEscaped]
      | cons d ds =>
        simp only [StartsEscaped, List.head?_cons, Option.some.injEq]
        rintro (rfl | rfl)
        · exact hzero ds rfl rfl
        · exact hone ds rfl rfl
    simp [tildesEscaped_cons, hnot]
  | case5 c rest _ _ hc ih => rw [Option.isSome_map, ih, tildesEscaped_cons_of_ne hc]

theorem unescape?_cons_of_ne (hc : c ≠ '~') : unescape? (c :: cs) = (unescape? cs).map (c :: ·) := by
  rw [unescape?, if_neg hc]
  all_goals exact fun _ heq => absurd heq hc

theorem unescape?_escape (cs : List Char) : unescape? (escape cs) = some cs := by
  induction cs with
  | nil => rfl
  | cons c cs ih =>
    have hcons : escape (c :: cs) = escapedChar c ++ escape cs := List.flatMap_cons
    rw [hcons, escapedChar]
    split
    · subst c
      simp [unescape?, ih]
    · split
      · subst c
        simp [unescape?, ih]
      · rename_i hc _
        rw [List.singleton_append, unescape?_cons_of_ne hc, ih]
        rfl

/-- A text without slashes is what its unescaped form is escaped to. -/
theorem escape_of_unescape? (hslash : '/' ∉ cs) (hds : unescape? cs = some ds) : escape ds = cs := by
  fun_induction unescape? cs generalizing ds with
  | case1 => cases hds; rfl
  | case2 rest ih | case3 rest ih =>
    obtain ⟨es, hes, rfl⟩ := Option.map_eq_some_iff.mp hds
    have hrest := ih (fun hmem => hslash (by simp [hmem])) hes
    simp [escape, escapedChar, ← hrest]
  | case4 => cases hds
  | case5 c rest _ _ hc ih =>
    obtain ⟨es, hes, rfl⟩ := Option.map_eq_some_iff.mp hds
    rw [List.mem_cons, not_or] at hslash
    have hrest := ih hslash.2 hes
    simp [escape, escapedChar, hc, Ne.symm hslash.1, ← hrest]

theorem slash_notMem_escape (cs : List Char) : '/' ∉ escape cs := by
  intro hmem
  obtain ⟨c, _, hc⟩ := List.mem_flatMap.mp hmem
  rw [escapedChar] at hc
  split at hc
  · simp at hc
  · split at hc
    · simp at hc
    · exact ‹¬c = '/'› (List.mem_singleton.mp hc).symm

/-- Each piece behind a slash. -/
def joinSlashes (pieces : List (List Char)) : List Char := pieces.flatMap ('/' :: ·)

theorem splitSlashes_eq (cs : List Char) :
    (splitSlashes cs).1 ++ joinSlashes (splitSlashes cs).2 = cs ∧
      ∀ piece ∈ (splitSlashes cs).1 :: (splitSlashes cs).2, '/' ∉ piece := by
  induction cs with
  | nil => simp [splitSlashes, joinSlashes]
  | cons c cs ih =>
    obtain ⟨hjoin, hnone⟩ := ih
    by_cases hc : c = '/'
    · subst c
      simp only [splitSlashes, if_pos]
      refine ⟨?_, by simpa using hnone⟩
      simpa [joinSlashes] using hjoin
    · simp only [splitSlashes, if_neg hc]
      refine ⟨by rw [List.cons_append, hjoin], ?_⟩
      simpa [Ne.symm hc] using hnone

theorem splitSlashes_append (hpiece : '/' ∉ piece) (rest : List Char) :
    splitSlashes (piece ++ rest) = (piece ++ (splitSlashes rest).1, (splitSlashes rest).2) := by
  induction piece with
  | nil => rfl
  | cons c cs ih =>
    rw [List.mem_cons, not_or] at hpiece
    simp only [List.cons_append, splitSlashes, ih hpiece.2, if_neg (Ne.symm hpiece.1)]

theorem splitSlashes_join (hnone : ∀ p ∈ piece :: pieces, '/' ∉ p) :
    splitSlashes (piece ++ joinSlashes pieces) = (piece, pieces) := by
  induction pieces generalizing piece with
  | nil => rw [splitSlashes_append (hnone _ List.mem_cons_self)]; simp [joinSlashes, splitSlashes]
  | cons next pieces ih =>
    have hjoin : joinSlashes (next :: pieces) = '/' :: (next ++ joinSlashes pieces) := rfl
    rw [splitSlashes_append (hnone _ List.mem_cons_self), hjoin, splitSlashes,
      ih fun p hp => hnone p (List.mem_cons_of_mem _ hp)]
    simp

theorem joinSlashes_cons (piece : List Char) (pieces : List (List Char)) :
    joinSlashes (piece :: pieces) = '/' :: (piece ++ joinSlashes pieces) := rfl

/-- A text has pieces exactly when it is empty or starts with a slash. -/
theorem exists_pieces_iff : (∃ pieces, cs = joinSlashes pieces ∧ ∀ piece ∈ pieces, '/' ∉ piece) ↔
    cs = [] ∨ cs.head? = some '/' := by
  constructor
  · rintro ⟨_ | ⟨piece, pieces⟩, rfl, _⟩
    · exact .inl rfl
    · exact .inr rfl
  · rintro (rfl | hhead)
    · exact ⟨[], rfl, by simp⟩
    · obtain ⟨rest, rfl⟩ := List.head?_eq_some_iff.mp hhead
      obtain ⟨hjoin, hnone⟩ := splitSlashes_eq rest
      exact ⟨_, by rw [joinSlashes_cons, hjoin], hnone⟩

/-- A text with pieces is read piece by piece. -/
theorem parse_of_pieces {text : String} (htext : text.toList = joinSlashes pieces)
    (hnone : ∀ piece ∈ pieces, '/' ∉ piece) :
    parse text = match pieces.mapM readSegment? with
      | some segments => .ok ⟨segments⟩
      | none => .error ⟨text, .strayTilde⟩ := by
  unfold parse
  rw [htext]
  cases pieces with
  | nil => rfl
  | cons piece pieces =>
    let read (split : List Char × List (List Char)) : Except PointerError Pointer :=
      match (split.1 :: split.2).mapM readSegment? with
      | some segments => .ok ⟨segments⟩
      | none => .error ⟨text, .strayTilde⟩
    exact congrArg read (splitSlashes_join hnone)

theorem parse_of_not_pieces {text : String} (htext : ¬ (text.toList = [] ∨ text.toList.head? = some '/')) :
    parse text = .error ⟨text, .noLeadingSlash⟩ := by
  unfold parse
  split
  · exact absurd (.inl ‹_›) htext
  · rename_i heq
    exact absurd (.inr (by rw [heq]; rfl)) htext
  · rfl

theorem parse_eq_ok_iff {text : String} {p : Pointer} : parse text = .ok p ↔
    ∃ pieces, text.toList = joinSlashes pieces ∧ (∀ piece ∈ pieces, '/' ∉ piece) ∧
      pieces.mapM readSegment? = some p.segments := by
  constructor
  · intro h
    by_cases hpieces : text.toList = [] ∨ text.toList.head? = some '/'
    · obtain ⟨pieces, htext, hnone⟩ := exists_pieces_iff.mpr hpieces
      rw [parse_of_pieces htext hnone] at h
      split at h
      · rename_i hread
        cases h
        exact ⟨pieces, htext, hnone, hread⟩
      · cases h
    · rw [parse_of_not_pieces hpieces] at h
      cases h
  · rintro ⟨pieces, htext, hnone, hread⟩
    rw [parse_of_pieces htext hnone, hread]

theorem tildesEscaped_joinSlashes :
    TildesEscaped (joinSlashes pieces) ↔ ∀ piece ∈ pieces, TildesEscaped piece := by
  induction pieces with
  | nil => simp [joinSlashes, tildesEscaped_nil]
  | cons piece pieces ih =>
    have hstart : ¬ StartsEscaped (joinSlashes pieces) := by
      cases pieces <;> simp [joinSlashes, StartsEscaped]
    rw [joinSlashes_cons, tildesEscaped_cons_of_ne (by decide), tildesEscaped_append hstart, ih,
      List.forall_mem_cons]

theorem segmentChars_of_readSegment? {s : Segment} (hslash : '/' ∉ piece)
    (hs : readSegment? piece = some s) : segmentChars s = '/' :: piece := by
  obtain ⟨cs, hcs, rfl⟩ := Option.map_eq_some_iff.mp hs
  rw [segmentChars, Segment.token_ofToken_eq, String.toList_ofList, escape_of_unescape? hslash hcs]

/-- Reading loses nothing: a text that is read is the text of what was read. -/
theorem render_of_parse {text : String} {p : Pointer} (h : parse text = .ok p) : p.render = text := by
  obtain ⟨pieces, htext, hnone, hread⟩ := parse_eq_ok_iff.mp h
  have hchars : p.segments.flatMap segmentChars = joinSlashes pieces := by
    have hall := mapM_eq_some_iff.mp hread
    generalize p.segments = segments at hall
    clear htext hread
    induction hall with
    | nil => rfl
    | cons hs _ ih =>
      rw [List.forall_mem_cons] at hnone
      rw [List.flatMap_cons, ih hnone.2, segmentChars_of_readSegment? hnone.1 hs]
      rfl
  rw [render, hchars, ← htext, String.ofList_toList]

/-- The pieces of the text of a pointer. -/
def escaped (p : Pointer) : List (List Char) := p.tokens.map fun t => escape t.toList

theorem toList_render (p : Pointer) : p.render.toList = joinSlashes p.escaped := by
  rw [render, String.toList_ofList, escaped, tokens, List.map_map, joinSlashes, List.flatMap_map]
  rfl

theorem slash_notMem_escaped (p : Pointer) : ∀ piece ∈ p.escaped, '/' ∉ piece := by
  intro piece hpiece
  obtain ⟨t, _, rfl⟩ := List.mem_map.mp hpiece
  exact slash_notMem_escape _

/-- The pointer that is read where this one was written: its indices are spelled as such. -/
def canonical (p : Pointer) : Pointer := ⟨p.segments.map fun s => .ofToken s.token⟩

theorem canonical_beq (p : Pointer) : (p.canonical == p) = true := by
  simp [beq_iff, tokens, canonical, Function.comp_def, Segment.token_ofToken_eq]

theorem parse_render (p : Pointer) : parse p.render = .ok p.canonical := by
  refine parse_eq_ok_iff.mpr ⟨p.escaped, p.toList_render, p.slash_notMem_escaped, ?_⟩
  rw [mapM_eq_some_iff, escaped, List.forall₂_map_left_iff, tokens, List.forall₂_map_left_iff, canonical,
    List.forall₂_map_right_iff, List.forall₂_same]
  intro s _
  rw [readSegment?, unescape?_escape, Option.map_some, String.ofList_toList]

/-- What is read depends on the text alone, so a text belongs to one pointer. -/
theorem render_eq_iff {p q : Pointer} : p.render = q.render ↔ (p == q) = true := by
  rw [beq_iff]
  constructor
  · intro h
    have hread := parse_render p
    rw [h, parse_render q] at hread
    have hsame := congrArg tokens (Except.ok.inj hread)
    rwa [beq_iff.mp q.canonical_beq, beq_iff.mp p.canonical_beq, eq_comm] at hsame
  · intro h
    rw [← String.toList_inj, toList_render, toList_render, escaped, escaped, h]

/-- A text is read when it has pieces and each of them can be unescaped. -/
theorem exists_parse_iff {text : String} : (∃ p, parse text = .ok p) ↔
    (text.toList = [] ∨ text.toList.head? = some '/') ∧ TildesEscaped text.toList := by
  have hread : ∀ pieces : List (List Char), (∃ p : Pointer,
      pieces.mapM readSegment? = some p.segments) ↔ TildesEscaped (joinSlashes pieces) := by
    intro pieces
    have hsome : (∃ p : Pointer, pieces.mapM readSegment? = some p.segments) ↔
        (pieces.mapM readSegment?).isSome = true := by
      rw [Option.isSome_iff_exists]
      exact ⟨fun ⟨p, hp⟩ => ⟨_, hp⟩, fun ⟨segments, hs⟩ => ⟨⟨segments⟩, hs⟩⟩
    rw [hsome, isSome_mapM_iff, tildesEscaped_joinSlashes]
    simp only [readSegment?, Option.isSome_map, isSome_unescape?_iff]
  simp only [parse_eq_ok_iff]
  rw [← exists_pieces_iff]
  constructor
  · rintro ⟨p, pieces, htext, hnone, hp⟩
    exact ⟨⟨pieces, htext, hnone⟩, htext ▸ (hread pieces).mp ⟨p, hp⟩⟩
  · rintro ⟨⟨pieces, htext, hnone⟩, hescaped⟩
    obtain ⟨p, hp⟩ := (hread pieces).mpr (htext ▸ hescaped)
    exact ⟨p, pieces, htext, hnone, hp⟩

/-- The text format is exact. A text is read when it is empty or starts with a slash and every tilde
in it is an escape, and what was read has this text. Every list of segments is read from its text, up
to the spelling of indices, so lists that differ in a token have different texts. -/
theorem parse_exact :
    (∀ text : String, (∃ p, parse text = .ok p) ↔
      text = "" ∨ text.toList.head? = some '/' ∧ TildesEscaped text.toList) ∧
    (∀ (text : String) (p : Pointer), parse text = .ok p → p.render = text) ∧
    (∀ segments : List Segment, ∃ p, parse (render ⟨segments⟩) = .ok p ∧ (p == ⟨segments⟩) = true) ∧
    ∀ p q : Pointer, p.render = q.render ↔ (p == q) = true := by
  refine ⟨fun text => ?_, fun _ _ => render_of_parse, fun segments => ?_, fun p q => ?_⟩
  · rw [exists_parse_iff, String.toList_eq_nil_iff, or_and_right]
    constructor
    · rintro (⟨hempty, _⟩ | hslash)
      · exact .inl hempty
      · exact .inr hslash
    · rintro (rfl | hslash)
      · exact .inl ⟨rfl, tildesEscaped_nil⟩
      · exact .inr hslash
  · exact ⟨_, parse_render _, canonical_beq _⟩
  · exact render_eq_iff

theorem parse_exact_escapes :
    parse "/~01/007/5" = .ok ⟨[.key "~1", .key "007", .index 5]⟩ ∧
      render ⟨[.key "~1", .key "007", .index 5]⟩ = "/~01/007/5" := by
  have hread : parse "/~01/007/5" = .ok ⟨[.key "~1", .key "007", .index 5]⟩ := by rfl
  exact ⟨hread, parse_exact.2.1 _ _ hread⟩

end Pointer

end Lineage
