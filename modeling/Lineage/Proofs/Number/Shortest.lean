import Mathlib.Data.Nat.Cast.Order.Field
import Lineage.Proofs.Number.Midpoints

/-! Shortest digits tell numbers apart. The search for them starts at or below the first digit of the
magnitude, so the last of the grids it goes through is finer than the distance between the midpoints, and
one of its two candidates reads back. Whatever the search finds reads back, so two numbers of one sign that
are written with the same digits are one. -/

namespace Lineage.Binary64

variable {x y : Binary64} {num den fuel : ℕ} {scale k : ℤ} {d : Decimal}

theorem mul_toNat_le_iff (hden : 0 < den) :
    den * 10 ^ k.toNat ≤ num * 10 ^ (-k).toNat ↔ (10 : ℚ) ^ k ≤ num / den := by
  have hden' : (0 : ℚ) < den := by exact_mod_cast hden
  rw [← zpow_toNat_div, div_le_div_iff₀ (by positivity) hden', mul_comm den]
  norm_cast

/-- The search for the exponent ends at or below the number if it starts close enough. -/
theorem down_le (hden : 0 < den) (h : (10 : ℚ) ^ (k - fuel) ≤ num / den) :
    (10 : ℚ) ^ decimalExponent.down num den fuel k ≤ num / den := by
  induction fuel generalizing k with
  | zero => simpa [decimalExponent.down] using h
  | succ fuel ih =>
    rw [decimalExponent.down]
    split
    · refine ih ?_
      rwa [show k - 1 - fuel = k - (fuel + 1 : ℕ) by omega]
    · rename_i hge
      exact (mul_toNat_le_iff hden).mp (not_lt.mp hge)

/-- A decimal exponent a little below a power of two, given the binary exponent plus two. -/
def decade (e : ℤ) : ℤ := e * 30103 / 100000 - 3

/-- The decimal exponents lie below the powers of two that finite numbers come to. -/
theorem decade_table : ∀ i : ℕ, i < 2200 →
    2 ^ (-((i : ℤ) - 1102)).toNat * 10 ^ (decade ((i : ℤ) - 1100)).toNat ≤
      2 ^ ((i : ℤ) - 1102).toNat * 10 ^ (-decade ((i : ℤ) - 1100)).toNat := by
  decide +kernel

theorem decade_le {e : ℤ} (hlow : -1100 ≤ e) (hhigh : e < 1100) : (10 : ℚ) ^ decade e ≤ 2 ^ (e - 2) := by
  have htable := decade_table (e + 1100).toNat (by omega)
  rw [show ((e + 1100).toNat : ℤ) - 1102 = e - 2 by omega,
    show ((e + 1100).toNat : ℤ) - 1100 = e by omega] at htable
  rw [← zpow_toNat_div, ← zpow_toNat_div 2, div_le_div_iff₀ (by positivity) (by positivity),
    mul_comm ((10 : ℚ) ^ _)]
  exact_mod_cast htable

/-- The binary logarithms of numerator and denominator give a power of two below the ratio. -/
theorem zpow_log2_le (hnum : num ≠ 0) (hden : 0 < den) :
    (2 : ℚ) ^ ((num.log2 : ℤ) - den.log2 - 1) ≤ num / den := by
  have hden' : (0 : ℚ) < den := by exact_mod_cast hden
  have hlow : ((2 ^ num.log2 : ℕ) : ℚ) ≤ num := by exact_mod_cast Nat.log2_self_le hnum
  have hhigh : (den : ℚ) ≤ ((2 ^ (den.log2 + 1) : ℕ) : ℚ) := by exact_mod_cast Nat.lt_log2_self.le
  push_cast at hlow hhigh
  have hpow : (2 : ℚ) ^ ((num.log2 : ℤ) - den.log2 - 1) = 2 ^ num.log2 / 2 ^ (den.log2 + 1) := by
    rw [show (num.log2 : ℤ) - den.log2 - 1 = (num.log2 : ℤ) - ((den.log2 + 1 : ℕ) : ℤ) by omega,
      zpow_sub₀ two_ne_zero, zpow_natCast, zpow_natCast]
  rw [hpow, div_le_div_iff₀ (by positivity) hden']
  exact mul_le_mul hlow hhigh hden'.le (by positivity)

theorem decimalExponent_le (hnum : num ≠ 0) (hden : 0 < den)
    (hlow : -1100 ≤ (num.log2 : ℤ) - den.log2 + 1) (hhigh : (num.log2 : ℤ) - den.log2 + 1 < 1100) :
    (10 : ℚ) ^ decimalExponent num den ≤ num / den := by
  refine down_le hden ?_
  calc (10 : ℚ) ^ (((num.log2 : ℤ) - den.log2 + 1) * 30103 / 100000 + 1 - (4 : ℕ))
      = 10 ^ decade ((num.log2 : ℤ) - den.log2 + 1) := by
        rw [decade]
        congr 1
        omega
    _ ≤ 2 ^ ((num.log2 : ℤ) - den.log2 + 1 - 2) := decade_le hlow hhigh
    _ = 2 ^ ((num.log2 : ℤ) - den.log2 - 1) := by
        congr 1
        omega
    _ ≤ num / den := zpow_log2_le hnum hden

/-- The search for digits starts at or below the magnitude. -/
theorem top_le (hfinite : x.isFinite = true) (hx : x.bits ≠ 0) :
    (10 : ℚ) ^ decimalExponent x.rounding.value x.rounding.denominator ≤ magnitudeOf x.bits := by
  have hfield : x.bits / 2 ^ 52 ≤ 2046 := by
    rw [isFinite, exponentField_eq, bne_iff_ne] at hfinite
    have hlt : x.bits < 2 ^ 63 := Nat.mod_lt _ (by decide)
    omega
  have hunit : -1074 ≤ x.exponent ∧ x.exponent ≤ 971 := by
    rw [exponent_eq, unitOf]
    split <;> omega
  have hpos : 0 < x.significand := by
    rw [significand_eq, Nat.pos_iff_ne_zero, ne_eq, significandOf_eq_zero_iff]
    exact hx
  have hlt : x.significand < 2 ^ 53 := by
    rw [significand_eq]
    exact significandOf_lt _
  have hvalue : x.rounding.value = 4 * x.significand * 2 ^ x.exponent.toNat := rfl
  have hdenominator : x.rounding.denominator = 2 ^ ((-x.exponent).toNat + 2) := by
    rw [Nat.pow_add, Nat.mul_comm]
    rfl
  have hnum : x.rounding.value ≠ 0 := by
    rw [hvalue]
    positivity
  have hlog : x.rounding.value.log2 < 55 + x.exponent.toNat := by
    rw [Nat.log2_lt hnum, hvalue, Nat.pow_add]
    exact Nat.mul_lt_mul_of_pos_right (by omega) (by positivity)
  have hlogden : x.rounding.denominator.log2 = (-x.exponent).toNat + 2 := by
    rw [hdenominator, Nat.log2_two_pow]
  rw [← value_div]
  refine decimalExponent_le hnum (by rw [hdenominator]; positivity) ?_ ?_
  · omega
  · omega

/-- The digits of the number on a grid, rounded down. -/
def gridFloor (x : Binary64) (scale : ℤ) : ℕ :=
  x.rounding.value * 10 ^ (-scale).toNat / (x.rounding.denominator * 10 ^ scale.toNat)

section Grid

/-- The number is a quotient of units of the grid. -/
theorem quotient_mul_zpow (x : Binary64) (scale : ℤ) :
    ((x.rounding.value * 10 ^ (-scale).toNat : ℕ) : ℚ) / (x.rounding.denominator * 10 ^ scale.toNat : ℕ) *
      10 ^ scale = magnitudeOf x.bits := by
  have hden := x.denominator_pos.ne'
  rw [← value_div, ← zpow_toNat_div]
  push_cast
  field_simp

theorem grid_denominator_pos (x : Binary64) (scale : ℤ) :
    0 < x.rounding.denominator * 10 ^ scale.toNat := by
  have := x.denominator_pos
  have hden : 0 < x.rounding.denominator := by exact_mod_cast this
  positivity

theorem value_gridFloor_le (x : Binary64) (scale : ℤ) :
    Decimal.value ⟨x.gridFloor scale, scale⟩ ≤ magnitudeOf x.bits := by
  rw [← x.quotient_mul_zpow scale]
  exact mul_le_mul_of_nonneg_right Nat.cast_div_le (by positivity)

theorem lt_value_gridFloor (x : Binary64) (scale : ℤ) :
    magnitudeOf x.bits < Decimal.value ⟨x.gridFloor scale + 1, scale⟩ := by
  have hpos := x.grid_denominator_pos scale
  rw [← x.quotient_mul_zpow scale]
  refine mul_lt_mul_of_pos_right ?_ (by positivity)
  rw [div_lt_iff₀ (by exact_mod_cast hpos)]
  have hnat : x.rounding.value * 10 ^ (-scale).toNat <
      (x.gridFloor scale + 1) * (x.rounding.denominator * 10 ^ scale.toNat) := by
    rw [Nat.mul_comm (x.gridFloor scale + 1)]
    exact Nat.lt_mul_div_succ _ hpos
  exact_mod_cast hnat

/-- A number that is not below the unit of the grid has digits on it. -/
theorem gridFloor_pos (hscale : (10 : ℚ) ^ scale ≤ magnitudeOf x.bits) : 0 < x.gridFloor scale := by
  have hpos := x.grid_denominator_pos scale
  have hone := hscale
  rw [← x.quotient_mul_zpow scale] at hone
  rw [le_mul_iff_one_le_left (by positivity), one_le_div (by exact_mod_cast hpos)] at hone
  exact Nat.div_pos (by exact_mod_cast hone) hpos

/-- What lies between the midpoints reads back. -/
theorem contains_of_between (hx : x.bits ≠ 0) (hlow : midpoint (x.bits - 1) < d.value)
    (hhigh : d.value < midpoint x.bits) : x.rounding.contains d = true := by
  rw [contains_iff hx]
  split
  · exact ⟨hlow.le, hhigh.le⟩
  · exact ⟨hlow, hhigh⟩

theorem midpoint_lt_magnitudeOf (hx : x.bits ≠ 0) :
    midpoint (x.bits - 1) < magnitudeOf x.bits ∧ magnitudeOf x.bits < midpoint x.bits := by
  rw [midpoint_pred hx, midpoint_eq]
  have hunit := unit_pos x.bits
  have hpred := unit_pos (x.bits - 1)
  constructor
  · linarith
  · linarith

/-- Where no candidate was taken, none reads back. -/
theorem contains_of_onGrid?_eq_none (hfloor : 0 < x.gridFloor scale)
    (hnone : x.rounding.onGrid? scale = none) :
    x.rounding.contains ⟨x.gridFloor scale, scale⟩ = false ∧
      x.rounding.contains ⟨x.gridFloor scale + 1, scale⟩ = false := by
  rw [gridFloor] at hfloor ⊢
  unfold Rounding.onGrid? at hnone
  simp only [Nat.pow_eq, decide_eq_true hfloor, Bool.and_true] at hnone
  split at hnone
  · split at hnone <;> cases hnone
  · cases hnone
  · cases hnone
  · exact ⟨‹_›, ‹_›⟩

/-- On a grid that is finer than the distance between the midpoints, a candidate reads back. -/
theorem isSome_onGrid? (hx : x.bits ≠ 0) (hscale : (10 : ℚ) ^ scale ≤ magnitudeOf x.bits)
    (hfine : (10 : ℚ) ^ scale < midpoint x.bits - midpoint (x.bits - 1)) :
    (x.rounding.onGrid? scale).isSome = true := by
  obtain ⟨hpred, hnext⟩ := midpoint_lt_magnitudeOf hx
  by_contra hnone
  rw [Bool.not_eq_true, Option.isSome_eq_false_iff, Option.isNone_iff_eq_none] at hnone
  obtain ⟨hbelow, habove⟩ := contains_of_onGrid?_eq_none (gridFloor_pos hscale) hnone
  -- if neither candidate reads back, the midpoints lie between them
  have hlow : Decimal.value ⟨x.gridFloor scale, scale⟩ ≤ midpoint (x.bits - 1) := by
    by_contra hlt
    rw [contains_of_between hx (not_le.mp hlt) ((x.value_gridFloor_le scale).trans_lt hnext)] at hbelow
    cases hbelow
  have hhigh : midpoint x.bits ≤ Decimal.value ⟨x.gridFloor scale + 1, scale⟩ := by
    by_contra hlt
    rw [contains_of_between hx (hpred.trans (x.lt_value_gridFloor scale)) (not_le.mp hlt)] at habove
    cases habove
  rw [Decimal.value] at hlow hhigh
  push_cast at hhigh
  linarith

end Grid

theorem contains_of_onGrid? (h : x.rounding.onGrid? scale = some d) : x.rounding.contains d = true := by
  unfold Rounding.onGrid? at h
  simp only at h
  split at h
  · rename_i hbelow habove
    split at h <;> cases h
    · exact (Bool.and_eq_true_iff.mp hbelow).1
    · exact habove
  · rename_i hbelow _
    cases h
    exact (Bool.and_eq_true_iff.mp hbelow).1
  · rename_i _ habove
    cases h
    exact habove
  · cases h

/-- The seventeenth grid is finer than the distance between the midpoints. -/
theorem grid_fine (hx : x.bits ≠ 0) (hscale : (10 : ℚ) ^ scale ≤ magnitudeOf x.bits) :
    (10 : ℚ) ^ (scale - 16) < midpoint x.bits - midpoint (x.bits - 1) := by
  have hunit := unit_pos x.bits
  have hgrid : (10 : ℚ) ^ (scale - 16) ≤ significandOf x.bits * 2 ^ unitOf x.bits / 10 ^ 16 := by
    rw [zpow_sub₀ (by norm_num), show (10 : ℚ) ^ (16 : ℤ) = 10 ^ 16 by norm_num]
    exact div_le_div_of_nonneg_right hscale (by positivity)
  have hdistance : midpoint x.bits - midpoint (x.bits - 1) =
      2 ^ unitOf x.bits / 2 + 2 ^ unitOf (x.bits - 1) / 2 := by
    rw [midpoint_eq, midpoint_pred hx]
    ring
  refine lt_of_le_of_lt hgrid ?_
  rw [hdistance, unitOf_pred]
  split
  · rename_i hfirst
    have hsignificand : significandOf x.bits = 2 ^ 52 := by
      unfold significandOf
      rw [if_neg (by omega)]
      omega
    rw [hsignificand]
    push_cast
    linarith
  · have hsignificand : (significandOf x.bits : ℚ) < 2 ^ 53 := by
      exact_mod_cast significandOf_lt x.bits
    have hproduct := mul_lt_mul_of_pos_right hsignificand hunit
    linarith

namespace Decimal

theorem value_drop (fuel : ℕ) (d : Decimal) : (trim.drop fuel d).value = d.value := by
  induction fuel generalizing d with
  | zero => rfl
  | succ fuel ih =>
    rw [trim.drop]
    split
    · rename_i hzero
      rw [Bool.and_eq_true, beq_iff_eq] at hzero
      have hdigits : (d.digits : ℚ) = 10 * (d.digits / 10 : ℕ) := by
        exact_mod_cast (Nat.mul_div_cancel' (Nat.dvd_of_mod_eq_zero hzero.1)).symm
      rw [ih, value, value, hdigits, zpow_add_one₀ (by norm_num)]
      ring
    · rfl

theorem value_trim (d : Decimal) : d.trim.value = d.value := value_drop 20 d

end Decimal

/-- The shortest digits of a number read back as the number. -/
theorem exists_contains_shortest (hfinite : x.isFinite = true) (hx : x.bits ≠ 0) :
    ∃ d, x.rounding.contains d = true ∧ x.shortest.value = d.value := by
  set top := decimalExponent x.rounding.value x.rounding.denominator with htop
  have hfound : ((List.range 17).findSome? fun n : ℕ => x.rounding.onGrid? (top - n)).isSome = true := by
    rw [List.findSome?_isSome_iff]
    refine ⟨16, by simp, ?_⟩
    have hle := top_le hfinite hx
    refine isSome_onGrid? hx (le_trans ?_ hle) (grid_fine hx hle)
    exact zpow_le_zpow_right₀ (by norm_num) (by omega)
  obtain ⟨d, hd⟩ := Option.isSome_iff_exists.mp hfound
  obtain ⟨n, _, hn⟩ := List.exists_of_findSome?_eq_some hd
  refine ⟨d, contains_of_onGrid? hn, ?_⟩
  rw [shortest, ← htop]
  simp only [hd]
  exact d.value_trim

end Lineage.Binary64
