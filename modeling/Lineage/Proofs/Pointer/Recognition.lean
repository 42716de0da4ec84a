import Mathlib.Data.Nat.Digits.Defs
import Lineage.Proofs.Pointer.Text

/-! Recognition of indices. A segment has an index exactly when its token is the decimal notation of a
number that a word can hold: digits only, each ten times the next, and no zero in front of others. -/

namespace Lineage

/-- The token is the decimal notation of a number. -/
structure IsDecimal (token : String) (n : Nat) : Prop where
  nonempty : token ≠ ""
  digits : ∀ c ∈ token.toList, '0' ≤ c ∧ c ≤ '9'
  leading : ∀ rest, token = "0" ++ rest → rest = ""
  value : Nat.ofDigits 10 (token.toList.map fun c => c.toNat - '0'.toNat).reverse = n

variable {token : String} {n : Nat}

theorem isDigit_iff {c : Char} : c.isDigit = true ↔ '0' ≤ c ∧ c ≤ '9' := by
  simp only [Char.isDigit, Bool.and_eq_true, decide_eq_true_eq]
  exact Iff.rfl

/-- Reading digits from left to right gives each its place value. -/
theorem ofDigitChars_eq_ofDigits (cs : List Char) :
    Nat.ofDigitChars 10 cs 0 = Nat.ofDigits 10 (cs.map fun c => c.toNat - '0'.toNat).reverse := by
  induction cs with
  | nil => rfl
  | cons c cs ih =>
    rw [Nat.ofDigitChars_cons, Nat.ofDigitChars_eq_ofDigitChars_zero, List.map_cons,
      Nat.ofDigits_reverse_cons, List.length_map, ih, Nat.mul_zero, Nat.zero_add, Nat.add_comm]

theorem isCanonicalIndex_iff : isCanonicalIndex token.toList = true ↔
    token ≠ "" ∧ (∀ c ∈ token.toList, '0' ≤ c ∧ c ≤ '9') ∧ ∀ rest, token = "0" ++ rest → rest = "" := by
  have hzero : ∀ rest : String, token = "0" ++ rest ↔ token.toList = '0' :: rest.toList := by
    intro rest
    rw [← String.toList_inj, String.toList_append]
    rfl
  have hleading : (∀ rest, token = "0" ++ rest → rest = "") ↔
      ∀ cs, token.toList = '0' :: cs → cs = [] := by
    constructor
    · intro h cs hcs
      have := h (String.ofList cs) ((hzero _).mpr (by rw [hcs, String.toList_ofList]))
      rwa [← String.toList_inj, String.toList_ofList] at this
    · intro h rest hrest
      rw [← String.toList_inj]
      exact h rest.toList ((hzero rest).mp hrest)
  rw [hleading, ne_eq, ← String.toList_inj]
  simp only [← isDigit_iff]
  generalize token.toList = cs
  cases cs with
  | nil => simp [isCanonicalIndex]
  | cons c cs =>
    by_cases hc : c = '0'
    · subst hc
      cases cs <;> simp [isCanonicalIndex]
    · simp [isCanonicalIndex, hc]

theorem isDecimal_iff : IsDecimal token n ↔
    isCanonicalIndex token.toList = true ∧ Nat.ofDigitChars 10 token.toList 0 = n := by
  rw [isCanonicalIndex_iff, ofDigitChars_eq_ofDigits]
  exact ⟨fun h => ⟨⟨h.nonempty, h.digits, h.leading⟩, h.value⟩,
    fun h => ⟨h.1.1, h.1.2.1, h.1.2.2, h.2⟩⟩

/-- A number has one decimal notation only. -/
theorem isDecimal_iff_repr : IsDecimal token n ↔ token = Nat.repr n := by
  rw [isDecimal_iff]
  constructor
  · rintro ⟨hcanonical, rfl⟩
    rw [Nat.repr_eq_ofList_toDigits, toDigits_ofDigitChars hcanonical, String.ofList_toList]
  · rintro rfl
    rw [Nat.toList_repr]
    exact ⟨isCanonicalIndex_toDigits n, Nat.ofDigitChars_ten_toDigits⟩

/-- A token that is no decimal notation is empty, has something in it that is no digit, or has a zero in
front of others. -/
theorem not_isDecimal_iff : (∀ n, ¬IsDecimal token n) ↔
    token = "" ∨ (∃ c ∈ token.toList, ¬('0' ≤ c ∧ c ≤ '9')) ∨ ∃ rest, rest ≠ "" ∧ token = "0" ++ rest := by
  have hcanonical : (∀ n, ¬IsDecimal token n) ↔ ¬isCanonicalIndex token.toList = true := by
    constructor
    · exact fun h hcanonical => h _ (isDecimal_iff.mpr ⟨hcanonical, rfl⟩)
    · exact fun h n hn => h (isDecimal_iff.mp hn).1
  rw [hcanonical, isCanonicalIndex_iff]
  constructor
  · intro h
    by_contra hnone
    simp only [not_or, not_exists, not_and_or, not_not] at hnone
    exact h ⟨hnone.1, fun c hc => (hnone.2.1 c).resolve_left (not_not_intro hc),
      fun rest hrest => (hnone.2.2 rest).resolve_right (not_not_intro hrest)⟩
  · rintro (hempty | ⟨c, hc, hrange⟩ | ⟨rest, hrest, htoken⟩) ⟨hnonempty, hdigits, hleading⟩
    · exact hnonempty hempty
    · exact hrange (hdigits c hc)
    · exact hrest (hleading rest htoken)

namespace Segment

/-- The index of a segment is a number below the bound exactly when the segment is the same as that index,
which is when its token is the decimal notation of the number. It has none when its token is no decimal
notation, or that of a greater number. Whatever a token denotes, the segment that is made of it keeps it. -/
theorem recognition_exact (s : Segment) :
    (∀ n, s.asIndex = some n ↔ (s == index n) = true ∧ n < 2 ^ 64) ∧
    (∀ n, s.asIndex = some n ↔ IsDecimal s.token n ∧ n < 2 ^ 64) ∧
    (s.asIndex = none ↔ s.token = "" ∨ (∃ c ∈ s.token.toList, ¬('0' ≤ c ∧ c ≤ '9')) ∨
      (∃ rest, rest ≠ "" ∧ s.token = "0" ++ rest) ∨ ∃ n, 2 ^ 64 ≤ n ∧ IsDecimal s.token n) ∧
    ∀ t, (ofToken t).token = t := by
  have hindex : ∀ n, s.asIndex = some n ↔ IsDecimal s.token n ∧ n < 2 ^ 64 := by
    intro n
    rw [isDecimal_iff_repr]
    exact asIndex_eq_some_iff
  refine ⟨fun n => ?_, hindex, ?_, token_ofToken_eq⟩
  · rw [beq_iff]
    exact asIndex_eq_some_iff
  · rw [← or_assoc, ← or_assoc, or_assoc (a := s.token = ""), ← not_isDecimal_iff,
      Option.eq_none_iff_forall_ne_some]
    constructor
    · intro hnone
      by_cases hdecimal : ∃ n, IsDecimal s.token n
      · obtain ⟨n, hn⟩ := hdecimal
        exact .inr ⟨n, not_lt.mp fun hlt => hnone n ((hindex n).mpr ⟨hn, hlt⟩), hn⟩
      · exact .inl (not_exists.mp hdecimal)
    · rintro (hnot | ⟨m, hle, hm⟩) n hn
      · exact hnot n ((hindex n).mp hn).1
      · obtain ⟨hdecimal, hlt⟩ := (hindex n).mp hn
        have heq : m = n := hm.value.symm.trans hdecimal.value
        omega

/-- The largest index, the number after it, and a zero in front. -/
example : [key "18446744073709551615", key "18446744073709551616", key "007"].map asIndex =
    [some 18446744073709551615, none, none] := by decide +kernel

end Segment

end Lineage
