import Lineage.Proofs.Traversal.Copies

/-! Copies that leave nothing out. Where no node is claimed, every node keeps its key, so that it is
copied to the place that it came from. -/

namespace Lineage

/-- Numbered entries are the items of an array from the number on. -/
def InOrder (number : Option Nat) (entries : List (Segment × Tree)) : Prop :=
  ∀ i, number = some i → ∃ ts, entries = Container.indexed i ts

section InOrder

variable {number : Option Nat} {x : Segment × Tree} {rest : List (Segment × Tree)}

theorem InOrder.keyFor_eq (h : InOrder number (x :: rest)) : Container.keyFor number x.1 = x.1 := by
  cases number with
  | none => rfl
  | some i =>
    obtain ⟨ts, hts⟩ := h i rfl
    cases ts with
    | nil => cases hts
    | cons t ts =>
      obtain ⟨rfl, _⟩ := List.cons.inj hts
      rfl

theorem InOrder.next (h : InOrder number (x :: rest)) : InOrder (number.map (· + 1)) rest := by
  intro i hi
  cases number with
  | none => cases hi
  | some j =>
    cases hi
    obtain ⟨ts, hts⟩ := h j rfl
    cases ts with
    | nil => cases hts
    | cons t ts => exact ⟨ts, (List.cons.inj hts).2⟩

theorem Heap.inOrder_entries (h : Heap) (t : Tree) :
    InOrder (if h.isArray t then some 0 else none) (h.entries t) := by
  intro i hi
  unfold Heap.isArray at hi
  unfold Heap.entries
  cases hc : h.container? t with
  | none => simp [hc] at hi
  | some c =>
    cases c with
    | object members => simp [hc, Container.isArray] at hi
    | array items =>
      simp only [hc, Option.map_some, Option.getD_some, Container.isArray, if_true] at hi
      cases hi
      exact ⟨items, rfl⟩

end InOrder

namespace Heap

variable {h : Heap} {claims : Segment → Pointer → Tree → Bool} {spot : Spot} {pass pass' : Pass}
  {entries : List (Segment × Tree)} {out : Pruned}

/-- Every node is copied to the place that it came from. -/
theorem Prunes.generated_eq_origin (hp : h.Prunes claims spot pass entries out pass')
    (hclaims : ∀ key p v, claims key p v = false) (hsame : spot.copy = spot.source)
    (horder : InOrder spot.number entries) : ∀ n ∈ out.nodes, n.generated = n.origin := by
  induction hp with
  | nil => exact fun n hn => absurd hn List.not_mem_nil
  | claimed hclaim _ _ =>
    rw [hclaims] at hclaim
    cases hclaim
  | @scalar spot _ _ key _ _ _ _ _ _ ih | @again spot _ _ key _ _ _ _ _ _ ih =>
    have hkey : spot.key key = key := horder.keyFor_eq
    intro n hn
    rcases List.mem_cons.mp hn with rfl | hn
    · simp only [Spot.node, hkey, hsame]
    · exact ih hsame horder.next n hn
  | @first spot _ _ _ key id _ _ _ _ _ _ _ ihbelow ihrest =>
    have hkey : spot.key key = key := horder.keyFor_eq
    intro n hn
    rcases List.mem_cons.mp hn with rfl | hn
    · simp only [Spot.node, hkey, hsame]
    · rcases List.mem_append.mp hn with hn | hn
      · have hinside : (spot.inside key (h.isArray (.container id))).copy =
            (spot.inside key (h.isArray (.container id))).source := by
          simp only [Spot.inside, hkey, hsame]
        exact ihbelow hinside (h.inOrder_entries _) n hn
      · exact ihrest hsame horder.next n hn

/-- No member is left out. -/
theorem Prunes.keys_eq (hp : h.Prunes claims spot pass entries out pass')
    (hclaims : ∀ key p v, claims key p v = false) (horder : InOrder spot.number entries) :
    out.members.map Prod.fst = entries.map Prod.fst := by
  induction hp with
  | nil => rfl
  | claimed hclaim _ _ =>
    rw [hclaims] at hclaim
    cases hclaim
  | @scalar spot _ _ key _ _ _ _ _ _ ih | @again spot _ _ key _ _ _ _ _ _ ih =>
    have hkey : spot.key key = key := horder.keyFor_eq
    simp only [Pruned.scalar, Pruned.container, List.map_cons, hkey]
    exact congrArg (List.cons key) (ih horder.next)
  | @first spot _ _ _ key _ _ _ _ _ _ _ _ _ ihrest =>
    have hkey : spot.key key = key := horder.keyFor_eq
    simp only [Pruned.container, List.map_cons, hkey]
    exact congrArg (List.cons key) (ihrest horder.next)

end Heap

end Lineage
