import Mathlib.Algebra.Order.Field.Power
import Mathlib.Data.Rat.Cast.Order
import Mathlib.Tactic.FieldSimp
import Mathlib.Tactic.Linarith
import Mathlib.Tactic.Positivity
import Mathlib.Tactic.Ring
import Lineage.Number.Shortest

/-! Finite magnitudes in their order. The low 63 bits of a word count the magnitudes upwards, each one
unit above the one before it, and what reads back as a number are the decimals between the midpoints to its
two neighbours, the midpoints themselves where the bits are even. So a decimal reads back as one magnitude
only. -/

namespace Lineage.Binary64

/-- The word without its sign. -/
def bits (x : Binary64) : ℕ := x.word.toNat % 2 ^ 63

/-- The exponent of the magnitude with these bits. -/
def unitOf (b : ℕ) : ℤ := if b / 2 ^ 52 = 0 then -1074 else (b / 2 ^ 52 : ℕ) - 1075

def significandOf (b : ℕ) : ℕ := if b / 2 ^ 52 = 0 then b % 2 ^ 52 else 2 ^ 52 + b % 2 ^ 52

def magnitudeOf (b : ℕ) : ℚ := significandOf b * 2 ^ unitOf b

/-- Halfway to the next magnitude. -/
def midpoint (b : ℕ) : ℚ := (magnitudeOf b + magnitudeOf (b + 1)) / 2

variable {x y : Binary64} {b : ℕ}

theorem zpow_toNat_div (a : ℚ) (e : ℤ) : a ^ e.toNat / a ^ (-e).toNat = a ^ e := by
  rcases Int.eq_nat_or_neg e with ⟨n, rfl | rfl⟩
  · simp
  · simp

theorem exponentField_eq (x : Binary64) : x.exponentField = x.bits / 2 ^ 52 := by
  simp only [exponentField, bits, Nat.pow_eq]
  omega

theorem fraction_eq (x : Binary64) : x.fraction = x.bits % 2 ^ 52 := by
  simp only [fraction, bits, Nat.pow_eq]
  omega

theorem significand_eq (x : Binary64) : x.significand = significandOf x.bits := by
  simp only [significand, significandOf, exponentField_eq, fraction_eq, Nat.pow_eq]

theorem exponent_eq (x : Binary64) : x.exponent = unitOf x.bits := by
  simp only [exponent, unitOf, exponentField_eq]

theorem significandOf_eq_zero_iff : significandOf b = 0 ↔ b = 0 := by
  unfold significandOf
  split <;> omega

theorem significandOf_lt (b : ℕ) : significandOf b < 2 ^ 53 := by
  unfold significandOf
  split <;> omega

theorem significandOf_mod_two (b : ℕ) : significandOf b % 2 = b % 2 := by
  unfold significandOf
  split <;> omega

/-- The next magnitude is one unit greater, also where the unit changes. -/
theorem magnitudeOf_succ (b : ℕ) : magnitudeOf (b + 1) = magnitudeOf b + 2 ^ unitOf b := by
  unfold magnitudeOf
  rcases Nat.lt_or_ge (b % 2 ^ 52 + 1) (2 ^ 52) with hlt | hge
  · have hunit : unitOf (b + 1) = unitOf b := by
      unfold unitOf
      rw [show (b + 1) / 2 ^ 52 = b / 2 ^ 52 by omega]
    have hnext : significandOf (b + 1) = significandOf b + 1 := by
      unfold significandOf
      rw [show (b + 1) / 2 ^ 52 = b / 2 ^ 52 by omega, show (b + 1) % 2 ^ 52 = b % 2 ^ 52 + 1 by omega]
      split <;> omega
    rw [hunit, hnext]
    push_cast
    ring
  · have hnext : significandOf (b + 1) = 2 ^ 52 := by
      unfold significandOf
      rw [if_neg (by omega)]
      omega
    by_cases hsub : b / 2 ^ 52 = 0
    · have hunit : unitOf (b + 1) = unitOf b := by
        unfold unitOf
        rw [if_pos hsub, if_neg (by omega)]
        omega
      have hlast : significandOf b = 2 ^ 52 - 1 := by
        unfold significandOf
        rw [if_pos hsub]
        omega
      rw [hunit, hnext, hlast]
      norm_num
      ring
    · have hunit : unitOf (b + 1) = unitOf b + 1 := by
        unfold unitOf
        rw [if_neg hsub, if_neg (by omega)]
        omega
      have hlast : significandOf b = 2 ^ 53 - 1 := by
        unfold significandOf
        rw [if_neg hsub]
        omega
      rw [hunit, hnext, hlast, zpow_add_one₀ two_ne_zero]
      norm_num
      ring

theorem unit_pos (b : ℕ) : (0 : ℚ) < 2 ^ unitOf b := by positivity

theorem magnitudeOf_strictMono : StrictMono magnitudeOf :=
  strictMono_nat_of_lt_succ fun b => by
    have := unit_pos b
    rw [magnitudeOf_succ]
    linarith

theorem midpoint_strictMono : StrictMono midpoint := fun a b hab => by
  have h₁ := magnitudeOf_strictMono hab
  have h₂ := magnitudeOf_strictMono (Nat.succ_lt_succ hab)
  unfold midpoint
  linarith

theorem midpoint_eq (b : ℕ) : midpoint b = magnitudeOf b + 2 ^ unitOf b / 2 := by
  rw [midpoint, magnitudeOf_succ]
  ring

/-- Below the first magnitude of a unit the neighbour is half a unit away, unless the unit is the least. -/
theorem unitOf_pred (b : ℕ) : (2 : ℚ) ^ unitOf (b - 1) =
    (if b % 2 ^ 52 = 0 ∧ 1 < b / 2 ^ 52 then 1 / 2 else 1) * 2 ^ unitOf b := by
  split
  · rename_i hfirst
    have hunit : unitOf b = unitOf (b - 1) + 1 := by
      unfold unitOf
      rw [if_neg (by omega), if_neg (by omega)]
      omega
    rw [hunit, zpow_add_one₀ two_ne_zero]
    ring
  · rename_i hinside
    have hunit : unitOf (b - 1) = unitOf b := by
      unfold unitOf
      split <;> split <;> omega
    rw [hunit, one_mul]

theorem midpoint_pred (hb : b ≠ 0) : midpoint (b - 1) = magnitudeOf b - 2 ^ unitOf (b - 1) / 2 := by
  have hsucc := magnitudeOf_succ (b - 1)
  rw [Nat.sub_add_cancel (Nat.one_le_iff_ne_zero.mpr hb)] at hsucc
  rw [midpoint_eq, hsucc]
  ring

/-- The rational number that a decimal writes down. -/
def Decimal.value (d : Decimal) : ℚ := d.digits * 10 ^ d.scale

theorem Decimal.ratio_div (d : Decimal) : (d.ratio.1 : ℚ) / d.ratio.2 = d.value := by
  rw [value, ← zpow_toNat_div, ratio, Nat.pow_eq, Nat.pow_eq]
  push_cast
  ring

theorem Decimal.ratio_pos (d : Decimal) : (0 : ℚ) < d.ratio.2 := by
  simp only [ratio, Nat.pow_eq]
  positivity

theorem denominator_pos (x : Binary64) : (0 : ℚ) < x.rounding.denominator := by
  simp only [rounding, Nat.pow_eq]
  positivity

/-- Quarters of the unit, over the denominator of the interval. -/
theorem quarters_div (x : Binary64) (n : ℕ) :
    ((n * 2 ^ x.exponent.toNat : ℕ) : ℚ) / x.rounding.denominator = n / 4 * 2 ^ unitOf x.bits := by
  rw [← exponent_eq, ← zpow_toNat_div]
  simp only [rounding, Nat.pow_eq]
  push_cast
  field_simp

theorem value_div (x : Binary64) :
    (x.rounding.value : ℚ) / x.rounding.denominator = magnitudeOf x.bits := by
  refine (x.quarters_div (4 * x.significand)).trans ?_
  rw [magnitudeOf, significand_eq]
  push_cast
  ring

theorem high_div (x : Binary64) :
    (x.rounding.high : ℚ) / x.rounding.denominator = midpoint x.bits := by
  refine (x.quarters_div (4 * x.significand + 2)).trans ?_
  rw [midpoint_eq, magnitudeOf, significand_eq]
  push_cast
  ring

theorem low_div (hx : x.bits ≠ 0) :
    (x.rounding.low : ℚ) / x.rounding.denominator = midpoint (x.bits - 1) := by
  have hpos : 1 ≤ x.significand := by
    rw [significand_eq, Nat.one_le_iff_ne_zero, ne_eq, significandOf_eq_zero_iff]
    exact hx
  have hquarters : ∀ down : ℕ, down ≤ 2 →
      (((4 * x.significand - down) * 2 ^ x.exponent.toNat : ℕ) : ℚ) / x.rounding.denominator =
        magnitudeOf x.bits - down / 4 * 2 ^ unitOf x.bits := by
    intro down hdown
    rw [quarters_div, magnitudeOf, significand_eq, Nat.cast_sub (by rw [← significand_eq]; omega)]
    push_cast
    ring
  have hlow : x.rounding.low = (4 * x.significand -
      if x.fraction = 0 && x.exponentField > 1 then 1 else 2) * 2 ^ x.exponent.toNat := rfl
  rw [midpoint_pred hx, unitOf_pred, hlow, fraction_eq, exponentField_eq]
  by_cases hfirst : x.bits % 2 ^ 52 = 0 ∧ 1 < x.bits / 2 ^ 52
  · rw [if_pos (by simpa using hfirst), if_pos hfirst, hquarters 1 (by omega)]
    ring
  · rw [if_neg (by simpa using hfirst), if_neg hfirst, hquarters 2 (by omega)]
    ring

/-- A decimal reads back as a magnitude where it lies between its midpoints, and on one of them where the
bits are even. -/
theorem contains_iff (hx : x.bits ≠ 0) {d : Decimal} : x.rounding.contains d = true ↔
    if x.bits % 2 = 0 then midpoint (x.bits - 1) ≤ d.value ∧ d.value ≤ midpoint x.bits
    else midpoint (x.bits - 1) < d.value ∧ d.value < midpoint x.bits := by
  have hden := x.denominator_pos
  have hratio := d.ratio_pos
  have hclosed : x.rounding.closed = decide (x.bits % 2 = 0) := by
    rw [← significandOf_mod_two, ← significand_eq]
    rfl
  rw [← low_div hx, ← high_div, ← d.ratio_div, div_le_div_iff₀ hden hratio,
    div_le_div_iff₀ hratio hden, div_lt_div_iff₀ hden hratio, div_lt_div_iff₀ hratio hden]
  unfold Rounding.contains
  rw [hclosed]
  by_cases heven : x.bits % 2 = 0
  · simp only [if_pos heven, Bool.and_eq_true, decide_eq_true_eq]
    norm_cast
  · simp only [if_neg heven, Bool.and_eq_true, decide_eq_true_eq]
    norm_cast

/-- No decimal reads back as two magnitudes. -/
theorem bits_eq_of_contains (hx : x.bits ≠ 0) (hy : y.bits ≠ 0) {d d' : Decimal}
    (hd : x.rounding.contains d = true) (hd' : y.rounding.contains d' = true)
    (hvalue : d.value = d'.value) : x.bits = y.bits := by
  have hle : ∀ {x y : Binary64}, x.bits ≠ 0 → y.bits ≠ 0 → ∀ {d d' : Decimal},
      x.rounding.contains d = true → y.rounding.contains d' = true → d.value = d'.value →
      ¬x.bits < y.bits := by
    intro x y hx hy d d' hd hd' hvalue hlt
    rw [contains_iff hx] at hd
    rw [contains_iff hy] at hd'
    -- the upper midpoint of the one is not above the lower midpoint of the other
    have hmono : midpoint x.bits ≤ midpoint (y.bits - 1) :=
      midpoint_strictMono.monotone (Nat.le_sub_one_of_lt hlt)
    have hupper : d.value ≤ midpoint x.bits := by
      split at hd
      · exact hd.2
      · exact hd.2.le
    have hlower : midpoint (y.bits - 1) ≤ d'.value := by
      split at hd'
      · exact hd'.1
      · exact hd'.1.le
    have hsame : midpoint x.bits = midpoint (y.bits - 1) := by linarith
    have hbits := midpoint_strictMono.injective hsame
    split at hd
    · split at hd'
      · omega
      · linarith [hd'.1]
    · linarith [hd.2]
  exact Nat.le_antisymm (not_lt.mp (hle hy hx hd' hd hvalue.symm)) (not_lt.mp (hle hx hy hd hd' hvalue))

end Lineage.Binary64
