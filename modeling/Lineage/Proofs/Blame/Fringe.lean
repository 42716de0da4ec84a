import Lineage.Proofs.Blame.Leaves
import Lineage.Proofs.Provenance.Longest

/-! The fringe of a blame tree. The walk for the leaves keeps the trees that are still to be looked at on a
stack and drops a place that it has found before. What it has found at any time, followed by what the
fringes of the stack add to it, is what it finds in the end. So the leaves are the fringe of the tree, read
from left to right, with the first position only of each place.
-/

namespace Lineage

/-- What stays is neither seen nor the same as anything else that stays. -/
theorem apart_distinctFrom {α : Type} (same : α → α → Bool) (seen xs : List α) :
    (∀ x ∈ distinctFrom same seen xs, seen.any (same · x) = false) ∧
      (distinctFrom same seen xs).Pairwise fun x y => same x y = false := by
  induction xs generalizing seen with
  | nil => exact ⟨fun x hx => absurd hx List.not_mem_nil, .nil⟩
  | cons x rest ih =>
    unfold distinctFrom
    cases hseen : seen.any (same · x) with
    | true => exact ih seen
    | false =>
      obtain ⟨hunseen, hrest⟩ := ih (seen ++ [x])
      have hafter : ∀ y ∈ distinctFrom same (seen ++ [x]) rest,
          seen.any (same · y) = false ∧ same x y = false := by
        intro y hy
        simpa [List.any_append] using hunseen y hy
      refine ⟨fun y hy => ?_, List.pairwise_cons.mpr ⟨fun y hy => (hafter y hy).2, hrest⟩⟩
      rcases List.mem_cons.mp hy with rfl | hy
      · exact hseen
      · exact (hafter y hy).1

namespace BlameTree

mutual

/-- The childless nodes from left to right. -/
def fringe : BlameTree → List Position
  | mk node [] => [node]
  | mk _ (t :: ts) => t.fringe ++ fringes ts

def fringes : List BlameTree → List Position
  | [] => []
  | t :: ts => t.fringe ++ fringes ts

end

theorem fringe_of_isLeaf {t : BlameTree} (h : t.isLeaf = true) : t.fringe = [t.node] := by
  obtain ⟨p, ts⟩ := t
  cases List.isEmpty_iff.mp h
  rw [fringe, node]

theorem fringe_of_not_isLeaf {t : BlameTree} (h : t.isLeaf = false) :
    t.fringe = fringes t.blaming := by
  obtain ⟨p, _ | ⟨t, ts⟩⟩ := t
  · cases h
  · rw [fringe, blaming, fringes]

theorem fringes_append (ts us : List BlameTree) : fringes (ts ++ us) = fringes ts ++ fringes us := by
  induction ts with
  | nil => rfl
  | cons t ts ih => rw [List.cons_append, fringes, ih, fringes, List.append_assoc]

/-- Every tree has a childless node. -/
theorem fringe_ne_nil : (t : BlameTree) → t.fringe ≠ []
  | mk p [] => by simp [fringe]
  | mk p (t :: ts) => by simp [fringe, fringe_ne_nil t]

/-- A walk with a step for every node of the stack adds the fringes of the stack to what it has found. -/
theorem collectLeaves_eq {steps : Nat} {stack : List BlameTree} (found : List Position)
    (hs : sizes stack < steps) :
    collectLeaves steps stack found =
      found ++ distinctFrom Position.samePlace found (fringes stack) := by
  induction steps generalizing stack found with
  | zero => exact absurd hs (Nat.not_lt_zero _)
  | succ steps ih =>
    cases stack with
    | nil => rw [collectLeaves, fringes, distinctFrom, List.append_nil]
    | cons t stack =>
      rw [sizes, size_eq] at hs
      rw [collectLeaves, fringes]
      cases hleaf : t.isLeaf with
      | true =>
        have hseen : found.any (t.node.samePlace ·) = found.any (·.samePlace t.node) :=
          congrArg found.any (funext fun p => Position.samePlace_comm t.node p)
        rw [if_pos rfl, ih _ (by omega), fringe_of_isLeaf hleaf, List.singleton_append, distinctFrom,
          hseen]
        cases found.any (·.samePlace t.node) with
        | true => rfl
        | false => exact List.append_assoc found [t.node] _
      | false =>
        -- the children take the place of their parent, on the stack and in the fringes
        have hsizes : sizes (t.blaming ++ stack) < steps := by
          rw [sizes_append]
          omega
        rw [if_neg Bool.false_ne_true, ih _ hsizes, fringes_append, fringe_of_not_isLeaf hleaf]

theorem leaves_eq_distinctBy (t : BlameTree) :
    t.leaves = distinctBy Position.samePlace t.fringe := by
  have hwalk : t.leaves = distinctBy Position.samePlace (fringes [t]) :=
    collectLeaves_eq [] (Nat.lt_succ_self t.size)
  rwa [fringes, fringes, List.append_nil] at hwalk

/-- The leaves of a blame tree are its childless nodes in depth-first order from left to right, of each
place the first one with the locator that it has there. So there is a leaf, no two leaves are one place,
and the place of every childless node is that of a leaf. -/
theorem leaves_eq_eraseDups_fringe (t : BlameTree) :
    t.leaves = t.fringe.eraseDupsBy Position.samePlace ∧ t.leaves ≠ [] ∧
      t.leaves.Pairwise (fun p q => p.samePlace q = false) ∧
      ∀ p, t.Leaf p → ∃ q ∈ t.leaves, p.samePlace q = true := by
  have hleaves := leaves_eq_distinctBy t
  refine ⟨?_, ?_, ?_, fun p hp => hp.exists_mem_leaves⟩
  · rw [hleaves]
    exact (distinctFrom_eq_eraseDups Position.samePlace_comm [] t.fringe).symm
  · obtain ⟨p, hp⟩ := List.exists_mem_of_ne_nil _ (fringe_ne_nil t)
    obtain ⟨q, hq, _⟩ := exists_same_of_mem Position.samePlace Position.samePlace_refl [] _ hp
    rw [hleaves]
    exact List.ne_nil_of_mem hq
  · rw [hleaves]
    exact (apart_distinctFrom Position.samePlace [] t.fringe).2

end BlameTree

end Lineage
