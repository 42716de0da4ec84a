import Lineage.Text.Quoted

/-! Identifiers of runs: 128-bit words in the form of random universally unique identifiers. -/

namespace Lineage

structure RunId where
  high : UInt64
  low : UInt64
deriving DecidableEq, Inhabited

namespace RunId

/-- Marks two random words as version 4 and variant 1. -/
def ofRandom (high low : UInt64) : RunId :=
  ⟨(high &&& 0xFFFFFFFFFFFF0FFF) ||| 0x4000, (low &&& 0x3FFFFFFFFFFFFFFF) ||| 0x8000000000000000⟩

/-- The sixteen hexadecimal digits of a word. -/
def wordChars (w : UInt64) : List Char :=
  let digits := Text.hexDigits w.toNat
  List.replicate (16 - digits.length) '0' ++ digits

def render (id : RunId) : String :=
  let high := wordChars id.high
  let low := wordChars id.low
  String.ofList (high.take 8 ++ '-' :: (high.drop 8).take 4 ++ '-' :: high.drop 12
    ++ '-' :: low.take 4 ++ '-' :: low.drop 4)

def hexValue? (c : Char) : Option Nat :=
  if c.isDigit then some (c.toNat - '0'.toNat)
  else if 'a' ≤ c && c ≤ 'f' then some (c.toNat - 'a'.toNat + 10)
  else none

/-- The number written by hexadecimal digits. -/
def hexNumber? (cs : List Char) : Option Nat :=
  cs.foldlM (fun n c => (hexValue? c).map (16 * n + ·)) 0

/-- Reads the form that `render` writes: groups of 8, 4, 4, 4 and 12 digits. -/
def parse? (text : String) : Option RunId := do
  let cs := text.toList
  let dashes := [8, 13, 18, 23]
  if cs.length = 36 && dashes.all (fun i => cs[i]? == some '-') then
    let digits := cs.filter (· != '-')
    if digits.length = 32 then
      let high ← hexNumber? (digits.take 16)
      let low ← hexNumber? (digits.drop 16)
      some ⟨UInt64.ofNat high, UInt64.ofNat low⟩
    else none
  else none

/-- The digit that tells how the identifier was made. -/
def version (id : RunId) : Nat := id.high.toNat / Nat.pow 2 12 % 16

end RunId

end Lineage
