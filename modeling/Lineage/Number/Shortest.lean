import Lineage.Number.Binary64

/-! The shortest decimal that reads back as a given number. On the grid of decimals with `n`
significant digits only the two neighbours of the number matter: the first grid on which one of them
reads back wins, and of two the nearer one, a tie going to the even digit. -/

namespace Lineage.Binary64

/-- A positive decimal `digits * 10 ^ scale`. -/
structure Decimal where
  digits : Nat
  scale : Int
deriving DecidableEq

/-- The half-open or closed interval of magnitudes that read back as a finite number, over one
denominator. The ends belong to it when the significand is even. -/
structure Rounding where
  low : Nat
  value : Nat
  high : Nat
  denominator : Nat
  closed : Bool

/-- Below a power of two the neighbours lie half as far apart, except at the subnormals. -/
def rounding (x : Binary64) : Rounding :=
  let m := x.significand
  let down := if x.fraction = 0 && x.exponentField > 1 then 1 else 2
  let up := Nat.pow 2 x.exponent.toNat
  { low := (4 * m - down) * up
    value := 4 * m * up
    high := (4 * m + 2) * up
    denominator := 4 * Nat.pow 2 (-x.exponent).toNat
    closed := m % 2 == 0 }

/-- Numerator and denominator of `digits * 10 ^ scale`. -/
def Decimal.ratio (d : Decimal) : Nat × Nat :=
  (d.digits * Nat.pow 10 d.scale.toNat, Nat.pow 10 (-d.scale).toNat)

def Rounding.contains (r : Rounding) (d : Decimal) : Bool :=
  let (n, m) := d.ratio
  let here := n * r.denominator
  if r.closed then r.low * m ≤ here && here ≤ r.high * m
  else r.low * m < here && here < r.high * m

/-- The distance from the value, over the denominator that both decimals share on one grid. -/
def Rounding.distance (r : Rounding) (d : Decimal) : Nat :=
  let (n, m) := d.ratio
  ((n * r.denominator : Int) - r.value * m).natAbs

/-- The exponent `k` with `10 ^ k ≤ num / den < 10 ^ (k + 1)`. The binary logarithms give it up to
the few steps that are then searched downwards. -/
def decimalExponent (num den : Nat) : Int :=
  let rec down : Nat → Int → Int
    | 0, k => k
    | fuel + 1, k =>
      if num * Nat.pow 10 (-k).toNat < den * Nat.pow 10 k.toNat then down fuel (k - 1) else k
  down 4 (((num.log2 : Int) - den.log2 + 1) * 30103 / 100000 + 1)

/-- The better of the value's two neighbours on one grid, if either reads back. -/
def Rounding.onGrid? (r : Rounding) (scale : Int) : Option Decimal :=
  let floor := r.value * Nat.pow 10 (-scale).toNat / (r.denominator * Nat.pow 10 scale.toNat)
  let below : Decimal := ⟨floor, scale⟩
  let above : Decimal := ⟨floor + 1, scale⟩
  match r.contains below && floor > 0, r.contains above with
  | true, true =>
    let a := r.distance below
    let b := r.distance above
    if a < b || (a == b && floor % 2 == 0) then some below else some above
  | true, false => some below
  | false, true => some above
  | false, false => none

/-- The decimal without trailing zeros in its digits. -/
def Decimal.trim (d : Decimal) : Decimal :=
  let rec drop : Nat → Decimal → Decimal
    | 0, d => d
    | fuel + 1, d =>
      if d.digits % 10 == 0 && d.digits != 0 then drop fuel ⟨d.digits / 10, d.scale + 1⟩ else d
  drop 20 d

/-- Seventeen digits always tell a finite number from its neighbours. -/
def shortest (x : Binary64) : Decimal :=
  let r := x.rounding
  let top := decimalExponent r.value r.denominator
  match (List.range 17).findSome? fun n : Nat => r.onGrid? (top - n) with
  | some d => d.trim
  | none => ⟨0, 0⟩

end Lineage.Binary64
