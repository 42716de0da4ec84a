import Lineage.Pointer.Basic

/-! Which tokens denote an index. A token is a canonical index exactly when it is the decimal of a
number, so the index of a segment depends on its token alone: a key and an index that share their
token find the same item. -/

namespace Lineage

theorem isDigit_bounds {c : Char} (h : c.isDigit = true) : 48 ≤ c.toNat ∧ c.toNat ≤ 57 := by
  simp only [Char.isDigit, Bool.and_eq_true, decide_eq_true_eq] at h
  exact ⟨h.1, h.2⟩

theorem digitChar_sub_of_isDigit {c : Char} (h : c.isDigit = true) :
    Nat.digitChar (c.toNat - 48) = c := by
  have hc := isDigit_bounds h
  apply Char.toNat_inj.mp
  rw [Nat.toNat_digitChar_of_lt_ten (by omega)]
  omega

/-- Digits that follow a positive number are written after its decimal. -/
theorem toDigits_ofDigitChars_append {cs : List Char} (hcs : ∀ c ∈ cs, c.isDigit = true) {m : Nat}
    (hm : 0 < m) : Nat.toDigits 10 (Nat.ofDigitChars 10 cs m) = Nat.toDigits 10 m ++ cs := by
  induction cs generalizing m with
  | nil => simp
  | cons c rest ih =>
    have hc := hcs c (by simp)
    have hb := isDigit_bounds hc
    have hd : Nat.toDigits 10 (c.toNat - 48) = [c] := by
      rw [Nat.toDigits_of_lt_base (by omega), digitChar_sub_of_isDigit hc]
    rw [Nat.ofDigitChars_cons, ih (fun x hx => hcs x (by simp [hx])) (by omega)]
    change Nat.toDigits 10 (10 * m + (c.toNat - 48)) ++ rest = _
    rw [← Nat.toDigits_append_toDigits (by omega) hm (by omega), hd]
    simp

/-- A canonical index is the decimal of the number it denotes. -/
theorem toDigits_ofDigitChars {cs : List Char} (h : isCanonicalIndex cs = true) :
    Nat.toDigits 10 (Nat.ofDigitChars 10 cs 0) = cs := by
  unfold isCanonicalIndex at h
  split at h
  · simp at h
  · rfl
  · rename_i c rest _
    simp only [Bool.and_eq_true, bne_iff_ne, ne_eq, List.all_eq_true] at h
    have hc := h.2 c (by simp)
    have hb := isDigit_bounds hc
    have hpos : 0 < c.toNat - 48 := by
      have : c.toNat ≠ 48 := fun h0 => h.1 (Char.toNat_inj.mp h0)
      omega
    rw [Nat.ofDigitChars_cons, Nat.mul_zero, Nat.zero_add]
    change Nat.toDigits 10 (Nat.ofDigitChars 10 rest (c.toNat - 48)) = _
    rw [toDigits_ofDigitChars_append (fun x hx => h.2 x (by simp [hx])) hpos,
      Nat.toDigits_of_lt_base (by omega), digitChar_sub_of_isDigit hc]
    rfl

theorem head?_toDigits_ne_zero {n : Nat} (hn : 0 < n) :
    (Nat.toDigits 10 n).head? ≠ some '0' := by
  induction n using Nat.strongRecOn with
  | _ n ih =>
    by_cases hlt : n < 10
    · rw [Nat.toDigits_of_lt_base hlt, List.head?_cons]
      intro h
      have := congrArg Char.toNat (Option.some.inj h)
      rw [Nat.toNat_digitChar_of_lt_ten hlt] at this
      change 48 + n = 48 at this
      omega
    · have hdiv := ih (n / 10) (by omega) (by omega)
      rw [Nat.toDigits_of_base_le (by omega) (by omega)]
      cases hd : Nat.toDigits 10 (n / 10) with
      | nil => exact absurd hd Nat.toDigits_ne_nil
      | cons c rest => rwa [hd] at hdiv

theorem isCanonicalIndex_toDigits (n : Nat) : isCanonicalIndex (Nat.toDigits 10 n) = true := by
  rcases Nat.eq_zero_or_pos n with rfl | hn
  · rfl
  · have hhead := head?_toDigits_ne_zero hn
    have hdigits : (Nat.toDigits 10 n).all Char.isDigit = true :=
      List.all_eq_true.mpr fun c hc => Nat.isDigit_of_mem_toDigits (by omega) (by omega) hc
    have hne : Nat.toDigits 10 n ≠ [] := Nat.toDigits_ne_nil
    generalize Nat.toDigits 10 n = cs at hhead hdigits hne
    unfold isCanonicalIndex
    split
    · exact absurd rfl hne
    · rfl
    · rename_i c rest _
      have hc : c ≠ '0' := fun h => hhead (by rw [h]; rfl)
      simpa [hc] using hdigits

/-- A token denotes an index below the bound exactly when it is its decimal. -/
theorem readIndex?_eq_some_iff {token : String} {n : Nat} :
    readIndex? token = some n ↔ token = Nat.repr n ∧ n < indexBound := by
  simp only [readIndex?, Bool.and_eq_true, decide_eq_true_eq]
  constructor
  · intro h
    split at h
    · rename_i hc
      cases h
      refine ⟨?_, hc.2⟩
      rw [Nat.repr_eq_ofList_toDigits, toDigits_ofDigitChars hc.1, String.ofList_toList]
    · simp at h
  · rintro ⟨rfl, hn⟩
    rw [Nat.toList_repr, Nat.ofDigitChars_ten_toDigits,
      if_pos ⟨isCanonicalIndex_toDigits n, hn⟩]

namespace Segment

/-- The index of a segment depends on its token alone. -/
theorem asIndex_eq_readIndex? (s : Segment) : s.asIndex = readIndex? s.token := by
  cases s with
  | key name => rfl
  | index n =>
    by_cases hn : n < indexBound
    · rw [asIndex, if_pos hn]
      exact (readIndex?_eq_some_iff.mpr ⟨rfl, hn⟩).symm
    · rw [asIndex, if_neg hn]
      refine (Option.eq_none_iff_forall_ne_some.mpr fun m hm => hn ?_).symm
      obtain ⟨hrepr, hlt⟩ := readIndex?_eq_some_iff.mp hm
      rwa [repr_inj.mp hrepr]

theorem asIndex_eq_some_iff {s : Segment} {n : Nat} :
    s.asIndex = some n ↔ s.token = Nat.repr n ∧ n < indexBound := by
  rw [asIndex_eq_readIndex?, readIndex?_eq_some_iff]

end Segment

end Lineage
