import Lineage.Number.Shortest

/-! Written forms of finite binary64 numbers. All of them show the shortest digits that read back; a
layout says for which magnitudes these are written positionally and how an exponent is signed. -/

namespace Lineage.Binary64

/-- The choices of one written form. -/
structure Layout where
  /-- The least decimal exponent written positionally. -/
  positionalFrom : Int
  /-- The greatest decimal exponent written positionally. -/
  positionalTo : Int
  /-- Whether a positive exponent carries a plus sign. -/
  signedExponent : Bool

/-- The form of numbers in trees and in JSON text. -/
def Layout.json : Layout := ⟨-5, 15, true⟩

/-- The form of numbers in YAML text. -/
def Layout.yaml : Layout := ⟨-5, 15, false⟩

def zeros (n : Nat) : List Char := List.replicate n '0'

/-- Digits without an exponent: there is always a point with a digit on either side. -/
def positional (digits : List Char) (scale : Int) : List Char :=
  let whole := digits.length + scale
  if scale ≥ 0 then digits ++ zeros scale.toNat ++ ['.', '0']
  else if whole > 0 then digits.take whole.toNat ++ '.' :: digits.drop whole.toNat
  else '0' :: '.' :: zeros (-whole).toNat ++ digits

/-- One digit before the point, and a point only if more digits follow. -/
def scientific (signedExponent : Bool) (digits : List Char) (exponent : Int) : List Char :=
  let sign := if exponent < 0 then ['-'] else if signedExponent then ['+'] else []
  let power := 'e' :: sign ++ Nat.toDigits 10 exponent.natAbs
  match digits with
  | [] => power
  | [d] => d :: power
  | d :: rest => d :: '.' :: rest ++ power

def Layout.magnitude (l : Layout) (d : Decimal) : List Char :=
  let digits := Nat.toDigits 10 d.digits
  let exponent : Int := digits.length + d.scale - 1
  if l.positionalFrom ≤ exponent && exponent ≤ l.positionalTo then positional digits d.scale
  else scientific l.signedExponent digits exponent

/-- A zero shows its sign too. -/
def Layout.render (l : Layout) (x : Binary64) : String :=
  let body := if x.significand = 0 then ['0', '.', '0'] else l.magnitude x.shortest
  String.ofList (if x.isNegative then '-' :: body else body)

end Lineage.Binary64
