import Lineage.Number.Binary64

/-! Reading decimal text as the nearest binary64 number. -/

namespace Lineage.Binary64

def digitsValue (ds : List Char) : Nat := Nat.ofDigitChars 10 ds 0

/-- The number nearest to `digits * 10 ^ scale`. Beyond these scales every magnitude that is not
zero overflows, or vanishes. -/
def ofDecimal (negative : Bool) (digits : Nat) (scale : Int) : Binary64 :=
  let exponent : Int := (Nat.toDigits 10 digits).length + scale
  if digits = 0 || exponent < -400 then zero negative
  else if exponent > 400 then infinity negative
  else ofRatio negative (digits * Nat.pow 10 scale.toNat) (Nat.pow 10 (-scale).toNat)

/-- A sign, if there is one, and what follows it. -/
def splitSign : List Char → Bool × List Char
  | '-' :: cs => (true, cs)
  | '+' :: cs => (false, cs)
  | cs => (false, cs)

/-- An exponent mark with a signed number after it, or nothing at all. -/
def readExponent? : List Char → Option Int
  | [] => some 0
  | c :: cs =>
    if c == 'e' || c == 'E' then
      let (negative, ds) := splitSign cs
      if ds.isEmpty || !ds.all Char.isDigit then none
      else some (if negative then -(digitsValue ds : Int) else digitsValue ds)
    else none

/-- Digits with at most one point among them, then an exponent if there is one. -/
def readMagnitude? (negative : Bool) (cs : List Char) : Option Binary64 :=
  let (whole, rest) := cs.span Char.isDigit
  let (places, rest) := match rest with
    | '.' :: more => more.span Char.isDigit
    | _ => ([], rest)
  if whole.isEmpty && places.isEmpty then none
  else (readExponent? rest).map fun e =>
    ofDecimal negative (digitsValue (whole ++ places)) (e - places.length)

/-- Reads decimal text in full; the names of the infinities and of what is not a number are read in
either case. -/
def read? (text : String) : Option Binary64 :=
  let (negative, cs) := splitSign text.toList
  match String.ofList (cs.map Char.toLower) with
  | "inf" | "infinity" => some (infinity negative)
  | "nan" => some nan
  | _ => readMagnitude? negative cs

end Lineage.Binary64
