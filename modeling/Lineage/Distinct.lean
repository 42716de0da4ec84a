/-! Lists without repetitions. Elements that are the same under a given test count once, and the
first of them stays where it was. -/

namespace Lineage

variable {α : Type}

/-- The elements that repeat neither a seen nor an earlier one. -/
def distinctFrom (same : α → α → Bool) (seen : List α) : List α → List α
  | [] => []
  | x :: rest =>
    if seen.any (same · x) then distinctFrom same seen rest
    else x :: distinctFrom same (seen ++ [x]) rest

/-- The elements that repeat no earlier one. -/
def distinctBy (same : α → α → Bool) (xs : List α) : List α := distinctFrom same [] xs

theorem distinctFrom_sublist (same : α → α → Bool) (seen xs : List α) :
    (distinctFrom same seen xs).Sublist xs := by
  induction xs generalizing seen with
  | nil => exact .slnil
  | cons x rest ih =>
    unfold distinctFrom
    split
    · exact (ih seen).cons x
    · exact (ih _).cons_cons x

/-- An element is seen, or it is the same as one that stays. -/
theorem exists_same_of_mem (same : α → α → Bool) (hrefl : ∀ x, same x x = true)
    (seen xs : List α) {x : α} (hx : x ∈ xs) :
    ∃ y ∈ seen ++ distinctFrom same seen xs, same y x = true := by
  induction xs generalizing seen with
  | nil => cases hx
  | cons a rest ih =>
    rcases List.mem_cons.mp hx with rfl | hx
    · unfold distinctFrom
      split
      · obtain ⟨y, hy, hs⟩ := List.any_eq_true.mp ‹_›
        exact ⟨y, List.mem_append_left _ hy, hs⟩
      · exact ⟨x, by simp, hrefl x⟩
    · unfold distinctFrom
      split
      · exact ih seen hx
      · obtain ⟨y, hy, hs⟩ := ih (seen ++ [a]) hx
        exact ⟨y, by simpa using hy, hs⟩

end Lineage
