import Lineage.Number.Reading

/-! Resolution of plain text. Text without quotes stands for null, a truth value or a number whenever
it can be read as one; any other text stands for itself. Text that consists of digits behind a zero
is no number but counts as typed, since it looks like one. -/

namespace Lineage.Yaml

/-- The words for null and for the truth values; no text at all stands for null. -/
def typedWords : List String :=
  ["", "~", "null", "Null", "NULL", "true", "True", "TRUE", "false", "False", "FALSE"]

/-- The base that a mark announces, and the text after the mark. -/
def splitBase? : List Char → Option (Nat × List Char)
  | '0' :: 'x' :: ds => some (16, ds)
  | '0' :: 'o' :: ds => some (8, ds)
  | '0' :: 'b' :: ds => some (2, ds)
  | _ => none

/-- The value of a digit in either case; no base has a digit of value sixteen. -/
def digitValue (c : Char) : Nat := "0123456789abcdef".toList.idxOf c.toLower

/-- At least one digit, and a value of at most `limit`. -/
def isBasedNumber (limit base : Nat) (ds : List Char) : Bool :=
  !ds.isEmpty && ds.all (digitValue · < base)
    && ds.foldl (fun n c => base * n + digitValue c) 0 ≤ limit

/-- Whole numbers with the mark of a base: below zero those of a signed word of 128 bits, otherwise
those of an unsigned one. -/
def isMarkedInteger (cs : List Char) : Bool :=
  let (negative, rest) := Binary64.splitSign cs
  let limit := if negative then Nat.pow 2 127 else Nat.pow 2 128 - 1
  (splitBase? rest).any fun (base, ds) => isBasedNumber limit base ds

/-- A zero with further digits behind it. -/
def isPaddedNumber (cs : List Char) : Bool :=
  match (Binary64.splitSign cs).2 with
  | '0' :: d :: ds => (d :: ds).all Char.isDigit
  | _ => false

/-- Decimal text whose nearest number is finite, and the names of the other numbers. Infinities may
have a sign. -/
def isDecimalNumber (cs : List Char) : Bool :=
  let rest := (Binary64.splitSign cs).2
  [".inf", ".Inf", ".INF"].contains (String.ofList rest)
    || [".nan", ".NaN", ".NAN"].contains (String.ofList cs)
    || (Binary64.readMagnitude? false rest).any Binary64.isFinite

/-- Whether plain text stands for something else than itself, or looks as if it did. -/
def isTyped (cs : List Char) : Bool :=
  typedWords.contains (String.ofList cs) || isMarkedInteger cs || isPaddedNumber cs
    || isDecimalNumber cs

end Lineage.Yaml
