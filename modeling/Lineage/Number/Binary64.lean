/-! Binary floating point numbers of 64 bits, kept as their words and computed with exactly: a
finite word stands for a sign, a whole significand and a power of two, and every operation rounds
the exact ratio of its result to the nearest word, a tie going to the even significand. -/

namespace Lineage

/-- A 64-bit floating point word: one sign bit, eleven exponent bits, 52 fraction bits. -/
structure Binary64 where
  word : UInt64
deriving DecidableEq, Inhabited

namespace Binary64

def isNegative (x : Binary64) : Bool := Nat.pow 2 63 ≤ x.word.toNat

def exponentField (x : Binary64) : Nat := x.word.toNat / Nat.pow 2 52 % Nat.pow 2 11

def fraction (x : Binary64) : Nat := x.word.toNat % Nat.pow 2 52

/-- The all-ones exponent is kept for the infinities and for what is not a number. -/
def isFinite (x : Binary64) : Bool := x.exponentField != 2047

def isNaN (x : Binary64) : Bool := x.exponentField == 2047 && x.fraction != 0

/-- A finite magnitude is `significand * 2 ^ exponent`. -/
def significand (x : Binary64) : Nat :=
  if x.exponentField = 0 then x.fraction else Nat.pow 2 52 + x.fraction

def exponent (x : Binary64) : Int :=
  if x.exponentField = 0 then -1074 else (x.exponentField : Int) - 1075

/-- Whether a number is one of the two zeros. -/
def isZero (x : Binary64) : Bool := x.isFinite && x.significand == 0

/-- The magnitude as a ratio of whole numbers. -/
def numerator (x : Binary64) : Nat := x.significand * Nat.pow 2 x.exponent.toNat

def denominator (x : Binary64) : Nat := Nat.pow 2 (-x.exponent).toNat

/-- The word with the given sign above the low 63 bits of `magnitude`. -/
def ofMagnitude (negative : Bool) (magnitude : Nat) : Binary64 :=
  ⟨UInt64.ofNat (if negative then Nat.pow 2 63 + magnitude else magnitude)⟩

def zero (negative : Bool) : Binary64 := ofMagnitude negative 0

def infinity (negative : Bool) : Binary64 := ofMagnitude negative (2047 * Nat.pow 2 52)

def nan : Binary64 := ofMagnitude false (2047 * Nat.pow 2 52 + Nat.pow 2 51)

/-- The quotient rounded to the nearest whole number, a tie going to the even one. -/
def roundedQuotient (num den : Nat) : Nat :=
  let q := num / den
  let r := num % den
  if 2 * r > den || (2 * r == den && q % 2 == 1) then q + 1 else q

/-- The number nearest to `num / den`. The unit is the power of two that leaves 53 significant bits,
but never below the smallest subnormal; a significand that rounds up to 54 bits carries into the
exponent by itself. -/
def ofRatio (negative : Bool) (num den : Nat) : Binary64 :=
  if num = 0 then zero negative
  else
    let guess : Int := (num.log2 : Int) - den.log2 - 53
    let scaled (e : Int) : Nat × Nat := (num * Nat.pow 2 (-e).toNat, den * Nat.pow 2 e.toNat)
    let (n, d) := scaled guess
    let unit := max (-1074) (if n / d < Nat.pow 2 53 then guess else guess + 1)
    let (n, d) := scaled unit
    let magnitude := (unit + 1074).toNat * Nat.pow 2 52 + roundedQuotient n d
    if magnitude < 2047 * Nat.pow 2 52 then ofMagnitude negative magnitude else infinity negative

def ofNat (n : Nat) : Binary64 := ofRatio false n 1

/-- The sign is that of the product, also for a zero. Both factors are finite. -/
def mul (x y : Binary64) : Binary64 :=
  ofRatio (x.isNegative != y.isNegative) (x.numerator * y.numerator) (x.denominator * y.denominator)

/-- Division by a finite number other than zero. -/
def div (x y : Binary64) : Binary64 :=
  ofRatio (x.isNegative != y.isNegative) (x.numerator * y.denominator) (x.denominator * y.numerator)

def neg (x : Binary64) : Binary64 :=
  ofMagnitude (!x.isNegative) (x.word.toNat % Nat.pow 2 63)

end Binary64

end Lineage
