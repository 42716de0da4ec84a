import Lineage.Number.Basic
import Lineage.Number.Reading

/-! Numbers in JSON text. A whole number that fits a 64-bit word is kept as it is. Any other number
becomes a binary64 number in two roundings: its leading digits, as many as fit an unsigned word, are
rounded first, and the result is then scaled by a power of ten. -/

namespace Lineage.Json

def wordLimit : Nat := Nat.pow 2 64

/-- Digits taken into a significand for as long as it stays below the word limit, and the number of
digits left over. -/
def absorb (significand : Nat) : List Char → Nat × Nat
  | [] => (significand, 0)
  | d :: ds =>
    let next := 10 * significand + (d.toNat - '0'.toNat)
    if next < wordLimit then absorb next ds else (significand, ds.length + 1)

/-- The power of ten nearest to `10 ^ n`. -/
def powerOfTen (n : Nat) : Binary64 := Binary64.ofNat (Nat.pow 10 n)

/-- Scales by a power of ten, down in steps of at most 308 decades; there is no result when the
number leaves the finite range. Four steps take every word to zero. -/
def scaleBy (x : Binary64) (exponent : Int) : Option Binary64 :=
  if exponent > 308 then if x.significand = 0 then some x else none
  else if exponent ≥ 0 then
    let y := x.mul (powerOfTen exponent.toNat)
    if y.isFinite then some y else none
  else some (down 4 x (-exponent).toNat)
where
  /-- Divides by `10 ^ n`. -/
  down : Nat → Binary64 → Nat → Binary64
    | 0, x, _ => x
    | steps + 1, x, n =>
      if n ≤ 308 then x.div (powerOfTen n)
      else if x.significand = 0 then x
      else down steps (x.div (powerOfTen 308)) (n - 308)

def floatOfParts (negative : Bool) (significand : Nat) (exponent : Int) : Option Number :=
  (scaleBy (Binary64.ofNat significand) exponent).bind fun x =>
    Number.ofBinary64? (if negative then x.neg else x)

/-- A number without point and exponent. A negative zero is no whole number. -/
def wholeNumber (negative : Bool) (digits : List Char) : Option Number :=
  let (significand, left) := absorb 0 digits
  if left > 0 then floatOfParts negative significand left
  else if !negative then Number.ofInt? significand
  else if 0 < significand && significand ≤ Nat.pow 2 63 then Number.ofInt? (-(significand : Int))
  else floatOfParts true significand 0

/-- Exponents are capped at a signed 32-bit word: beyond it a number is zero or out of range. -/
def exponentLimit : Nat := Nat.pow 2 31

/-- A number from its sign, its digits before and after the point and its exponent. -/
def decimalNumber (negative : Bool) (whole places : List Char) (negativeExponent : Bool)
    (exponent : Nat) : Option Number :=
  let (significand, left) := absorb 0 whole
  let (significand, skipped) := absorb significand places
  let scale : Int := left - ((places.length - skipped : Nat) : Int)
  if exponent ≥ exponentLimit then
    if significand = 0 || negativeExponent then Number.ofBinary64? (Binary64.zero negative)
    else none
  else floatOfParts negative significand
    (if negativeExponent then scale - exponent else scale + exponent)

/-- A run of digits, which may not be empty. -/
def digitRun (cs : List Char) : Option (List Char × List Char) :=
  match cs.span Char.isDigit with
  | ([], _) => none
  | run => some run

/-- The number at the start of the text, and the text after it. -/
def readNumber (negative : Bool) (cs : List Char) : Option (Number × List Char) := do
  let (whole, rest) ← digitRun cs
  if whole.head? = some '0' && whole.length > 1 then none
  else
    let (places, rest) ← match rest with
      | '.' :: more => digitRun more
      | _ => some ([], rest)
    match rest with
    | c :: more =>
      if c == 'e' || c == 'E' then
        let (negativeExponent, more) := Binary64.splitSign more
        let (power, rest) ← digitRun more
        let number ← decimalNumber negative whole places negativeExponent
          (Binary64.digitsValue power)
        some (number, rest)
      else plain whole places rest
    | [] => plain whole places rest
where
  /-- A number without an exponent. -/
  plain (whole places rest : List Char) : Option (Number × List Char) :=
    (if places.isEmpty then wholeNumber negative whole
      else decimalNumber negative whole places false 0).map (·, rest)

end Lineage.Json
