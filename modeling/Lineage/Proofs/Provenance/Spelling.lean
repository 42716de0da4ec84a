import Lineage.Proofs.Blame.Leniency
import Lineage.Proofs.Provenance.Ancestors
import Lineage.Proofs.Supply

/-! Spellings of segments. A segment may be spelled as a key or as an index, and pointers are the same
when their tokens are. What is read from a mapping list or traced in a store for one spelling is, up to
the spelling of its own pointers, what is read or traced for another.
-/

namespace Lineage

section Relations

variable {α ε : Type}

/-- The two are the same, although pointers in them may be spelled differently. -/
def Same [BEq α] (a b : α) : Prop := (a == b) = true

/-- Both fail or both succeed, and their errors or values are related. -/
def Agree (errors : ε → ε → Prop) (values : α → α → Prop) : Except ε α → Except ε α → Prop
  | .error e, .error e' => errors e e'
  | .ok a, .ok b => values a b
  | _, _ => False

variable {errors : ε → ε → Prop} {values : α → α → Prop}

theorem Agree.cases {r r' : Except ε α} (h : Agree errors values r r') :
    (∃ e e', r = .error e ∧ r' = .error e' ∧ errors e e') ∨
      ∃ a a', r = .ok a ∧ r' = .ok a' ∧ values a a' := by
  cases r with
  | error e =>
    cases r' with
    | error e' => exact .inl ⟨e, e', rfl, rfl, h⟩
    | ok a' => exact h.elim
  | ok a =>
    cases r' with
    | error e' => exact h.elim
    | ok a' => exact .inr ⟨a, a', rfl, rfl, h⟩

/-- Lists that are converted element by element agree if their elements do. -/
theorem mapM_agree {β : Type} {r : β → β → Prop} {f g : β → Except ε α}
    (hfg : ∀ x y, r x y → Agree errors values (f x) (g y)) {xs ys : List β}
    (h : List.Forall₂ r xs ys) : Agree errors (List.Forall₂ values) (xs.mapM f) (ys.mapM g) := by
  induction h with
  | nil => exact .nil
  | @cons x y xs ys hxy _ ih =>
    rw [List.mapM_cons, List.mapM_cons]
    rcases (hfg x y hxy).cases with ⟨e, e', hf, hg, hhead⟩ | ⟨a, b, hf, hg, hhead⟩
    · rw [hf, hg]
      exact hhead
    · rcases ih.cases with ⟨e, e', hfs, hgs, htail⟩ | ⟨as, bs, hfs, hgs, htail⟩
      · rw [hf, hg, hfs, hgs]
        exact htail
      · rw [hf, hg, hfs, hgs]
        exact .cons hhead htail

end Relations

theorem Segment.same_iff {s t : Segment} : Same s t ↔ s.token = t.token := Segment.beq_iff

theorem Pointer.same_iff {p q : Pointer} : Same p q ↔ p.tokens = q.tokens := Pointer.beq_iff

theorem Position.same_iff {p q : Position} : Same p q ↔
    p.source = q.source ∧ Same p.pointer q.pointer ∧ p.auxiliary = q.auxiliary := by
  have hsame : (p == q) = (p.source == q.source && p.pointer == q.pointer &&
    p.auxiliary == q.auxiliary) := rfl
  rw [Same, hsame, Bool.and_eq_true, Bool.and_eq_true, and_assoc, beq_iff_eq, Same,
    beq_iff_eq (a := p.auxiliary)]

/-- The mappings are the same up to the spelling of their pointers. -/
structure Mapping.Alike (m n : Mapping) : Prop where
  generated : Same m.generated n.generated
  origin : Same m.origin n.origin
  source : m.source = n.source
  auxiliary : m.auxiliary = n.auxiliary
  recurse : m.recurse = n.recurse

structure BlameError.Alike (e e' : BlameError) : Prop where
  position : Same e.position e'.position
  cause : e.cause = e'.cause

/-- The trees have the same nodes in the same shape, up to the spelling of pointers. -/
inductive BlameTree.Alike : BlameTree → BlameTree → Prop
  | mk {p q : Position} {ts us : List BlameTree} (hp : Same p q) (hts : List.Forall₂ Alike ts us) :
    Alike (.mk p ts) (.mk q us)

namespace Pointer

variable {p q r r' : Pointer}

theorem same_refl (p : Pointer) : Same p p := same_iff.mpr rfl

theorem same_append (hp : Same p q) {k k' : Segment} (hk : Same k k') :
    Same (p.append k) (q.append k') := by
  rw [same_iff, tokens_append, tokens_append, same_iff.mp hp, Segment.same_iff.mp hk]

theorem same_join (hp : Same p q) (hr : Same r r') : Same (p.join r) (q.join r') := by
  rw [same_iff, tokens_join, tokens_join, same_iff.mp hp, same_iff.mp hr]

theorem startsWith_congr (hp : Same p q) (hr : Same r r') :
    p.startsWith r = q.startsWith r' := by
  rw [Bool.eq_iff_iff, startsWith_iff, startsWith_iff, same_iff.mp hp, same_iff.mp hr]

/-- The ways down are the same, or there is none. -/
theorem below?_congr (hp : Same p q) (hr : Same r r') :
    Option.Rel Same (p.below? r) (q.below? r') := by
  have hsome : (p.below? r).isSome = (q.below? r').isSome := by
    rw [Bool.eq_iff_iff, isSome_below?_iff, isSome_below?_iff, same_iff.mp hp, same_iff.mp hr]
  cases hb : p.below? r with
  | none =>
    rw [hb, eq_comm, Option.isSome_none, Option.isSome_eq_false_iff, Option.isNone_iff_eq_none] at hsome
    rw [hsome]
    exact .none
  | some down =>
    rw [hb, Option.isSome_some, eq_comm] at hsome
    obtain ⟨down', hb'⟩ := Option.isSome_iff_exists.mp hsome
    rw [hb']
    refine .some (same_iff.mpr ?_)
    have htokens := tokens_of_below? hb
    rw [same_iff.mp hp, tokens_of_below? hb', same_iff.mp hr, List.append_cancel_left_eq] at htokens
    exact htokens.symm

end Pointer

section Distinct

variable {α : Type} {r : α → α → Prop} {same : α → α → Bool} {seen seen' xs ys : List α}

theorem any_congr_of_forall₂ {f g : α → Bool} (h : List.Forall₂ r xs ys)
    (hfg : ∀ x y, r x y → f x = g y) : xs.any f = ys.any g := by
  induction h with
  | nil => rfl
  | cons hxy _ ih => rw [List.any_cons, List.any_cons, hfg _ _ hxy, ih]

/-- Repetitions are dropped alike from related lists. -/
theorem distinctFrom_congr (hr : ∀ a b c d, r a b → r c d → same a c = same b d)
    (hseen : List.Forall₂ r seen seen') (h : List.Forall₂ r xs ys) :
    List.Forall₂ r (distinctFrom same seen xs) (distinctFrom same seen' ys) := by
  induction h generalizing seen seen' with
  | nil => exact .nil
  | @cons x y xs ys hxy _ ih =>
    have hany : seen.any (same · x) = seen'.any (same · y) :=
      any_congr_of_forall₂ hseen fun a b hab => hr a b x y hab hxy
    rw [distinctFrom, distinctFrom, hany]
    split
    · exact ih hseen
    · exact .cons hxy (ih (List.rel_append hseen (.cons hxy .nil)))

end Distinct

namespace Position

variable {p p' q q' : Position}

theorem same_refl (p : Position) : Same p p := beq_refl p

theorem forall₂_same_refl (ps : List Position) : List.Forall₂ Same ps ps :=
  List.forall₂_same.mpr fun p _ => same_refl p

theorem beq_congr (hp : Same p p') (hq : Same q q') : (p == q) = (p' == q') := by
  rw [same_iff, Pointer.same_iff] at hp hq
  rw [Bool.eq_iff_iff]
  change Same p q ↔ Same p' q'
  rw [same_iff, same_iff, Pointer.same_iff, Pointer.same_iff, hp.1, hp.2.1, hp.2.2, hq.1, hq.2.1, hq.2.2]

theorem samePlace_congr (hp : Same p p') (hq : Same q q') : p.samePlace q = p'.samePlace q' := by
  rw [same_iff, Pointer.same_iff] at hp hq
  rw [Bool.eq_iff_iff, samePlace_iff, samePlace_iff, hp.1, hp.2.1, hq.1, hq.2.1]

theorem same_inheritAuxiliary (hp : Same p p') (hq : Same q q') :
    Same (p.inheritAuxiliary q) (p'.inheritAuxiliary q') := by
  rw [same_iff] at hp hq ⊢
  exact ⟨hp.1, hp.2.1, congrArg₂ Option.or hp.2.2 hq.2.2⟩

end Position

section Behind

variable {p q : Pointer}

theorem explanations_congr (ms : List Mapping) (hp : Same p q) :
    List.Forall₂ Same (explanations ms p) (explanations ms q) := by
  have hexact : ∀ g : Pointer, (g == p) = (g == q) := by
    intro g
    rw [Bool.eq_iff_iff, Pointer.beq_iff, Pointer.beq_iff, Pointer.same_iff.mp hp]
  have hdeepest : deepestAncestor ms p = deepestAncestor ms q := by
    simp only [deepestAncestor, fun m : Mapping =>
      Pointer.startsWith_congr hp (Pointer.same_refl m.generated)]
  unfold explanations
  simp only [hexact, hdeepest]
  split
  · split
    · exact .nil
    · refine List.rel_filterMap ?_ (List.forall₂_eq_eq_eq ▸ rfl : List.Forall₂ (· = ·) _ _)
      rintro m _ rfl
      -- the mappings are those of one list, and only the ways down differ in spelling
      change Option.Rel Same ((p.below? m.generated).map m.positionBelow)
        ((q.below? m.generated).map m.positionBelow)
      have hbelow := Pointer.below?_congr hp (Pointer.same_refl m.generated)
      generalize p.below? m.generated = down at hbelow
      generalize q.below? m.generated = down' at hbelow
      cases hbelow with
      | none => exact .none
      | some hdown =>
        exact .some (Position.same_iff.mpr ⟨rfl, Pointer.same_join (Pointer.same_refl _) hdown, rfl⟩)
  · exact Position.forall₂_same_refl _

theorem positionsBehind_congr (ms : List Mapping) (hp : Same p q) :
    List.Forall₂ Same (positionsBehind ms p) (positionsBehind ms q) :=
  distinctFrom_congr (fun _ _ _ _ => Position.beq_congr) .nil (explanations_congr ms hp)

end Behind

/-- The lookup answers alike for all spellings of a position. -/
def Lookup.IgnoresSpelling (lookup : Lookup) : Prop :=
  ∀ p q, Same p q → Agree Eq (List.Forall₂ Same) (lookup p) (lookup q)

theorem Lookup.IgnoresSpelling.cases {lookup : Lookup} (h : lookup.IgnoresSpelling) {p p' : Position}
    (hp : Same p p') : (∃ cause, lookup p = .error cause ∧ lookup p' = .error cause) ∨
      ∃ ps ps', lookup p = .ok ps ∧ lookup p' = .ok ps' ∧ List.Forall₂ Same ps ps' := by
  rcases (h p p' hp).cases with ⟨cause, _, hl, hl', rfl⟩ | hok
  · exact .inl ⟨cause, hl, hl'⟩
  · exact .inr hok

theorem MemoryStore.ignoresSpelling (s : MemoryStore) : Lookup.IgnoresSpelling s.behind := by
  intro p q hpq
  obtain ⟨hsource, hpointer, _⟩ := Position.same_iff.mp hpq
  unfold behind
  rw [← hsource]
  cases s.document? p.source with
  | none => exact rfl
  | some d => exact positionsBehind_congr _ hpointer

namespace BlameTree

variable {lookup : Lookup} {lenient tolerant : Bool} {depth : Nat} {above above' : List Position}
  {p p' : Position}

theorem alike_leaf (hp : Same p p') : Alike (leaf p) (leaf p') := .mk hp .nil

/-- Nodes that are the same, above trees that are alike or a failure. -/
theorem agree_mk (hp : Same p p') {r r' : Except BlameError (List BlameTree)}
    (h : Agree BlameError.Alike (List.Forall₂ Alike) r r') :
    Agree BlameError.Alike Alike (r >>= fun ts => .ok (mk p ts)) (r' >>= fun ts => .ok (mk p' ts)) := by
  cases r <;> cases r'
  · exact h
  · exact h
  · exact h
  · exact .mk hp h

theorem isOpen_congr (habove : List.Forall₂ Same above above') (hp : Same p p') :
    isOpen (above.map .ofPosition) p = isOpen (above'.map .ofPosition) p' := by
  rw [isOpen_map, isOpen_map]
  exact any_congr_of_forall₂ habove fun _ _ ha => Position.samePlace_congr hp ha

theorem resolve_agree_of_error {cause : StoreError} (hl : lookup p = .error cause)
    (hl' : lookup p' = .error cause) (hp : Same p p') (opened opened' : List OpenPlace) :
    Agree BlameError.Alike Alike (resolve lookup lenient depth tolerant opened p)
      (resolve lookup lenient depth tolerant opened' p') := by
  rw [resolve_of_error hl, resolve_of_error hl']
  cases tolerant with
  | true => exact alike_leaf hp
  | false => exact ⟨hp, rfl⟩

/-- A resolution goes by the tokens of its position and of those on the way to it. -/
theorem resolve_congr (hlookup : lookup.IgnoresSpelling) (habove : List.Forall₂ Same above above')
    (hp : Same p p') :
    Agree BlameError.Alike Alike (resolve lookup lenient depth tolerant (above.map .ofPosition) p)
      (resolve lookup lenient depth tolerant (above'.map .ofPosition) p') := by
  induction depth generalizing tolerant above above' p p' with
  | zero =>
    rcases hlookup.cases hp with ⟨cause, hl, hl'⟩ | ⟨ps, ps', hl, hl', _⟩
    · exact resolve_agree_of_error hl hl' hp _ _
    · rw [resolve_of_stop hl (.inr rfl), resolve_of_stop hl' (.inr rfl)]
      exact alike_leaf hp
  | succ depth ih =>
    rcases hlookup.cases hp with ⟨cause, hl, hl'⟩ | ⟨ps, ps', hl, hl', hps⟩
    · exact resolve_agree_of_error hl hl' hp _ _
    · by_cases hnil : ps = []
      · subst hnil
        cases hps
        rw [resolve_of_stop hl (.inl rfl), resolve_of_stop hl' (.inl rfl)]
        exact alike_leaf hp
      · have hnil' : ps' ≠ [] := by
          rintro rfl
          exact hnil (List.forall₂_nil_right_iff.mp hps)
        rw [resolve_of_more hl hnil, resolve_of_more hl' hnil']
        refine agree_mk hp (mapM_agree (fun q q' hq => ?_) hps)
        have hup := Position.same_inheritAuxiliary hq hp
        unfold explain
        rw [isOpen_congr (.cons hp habove) hup]
        split
        · exact alike_leaf hup
        · exact ih (.cons hp habove) hup

end BlameTree

end Lineage
