import Lineage.Number.Layout

/-! Numbers of document trees: whole numbers that fit a signed or an unsigned 64-bit word, and
finite binary64 numbers. -/

namespace Lineage

/-- Whether a signed or an unsigned word can hold a whole number. -/
def fitsWord (n : Int) : Bool := -0x8000000000000000 ≤ n && n < 0x10000000000000000

inductive Number where
  | integer (value : Int) (fits : fitsWord value = true)
  | float (value : Binary64) (finite : value.isFinite = true)
deriving DecidableEq

namespace Number

/-- The whole number, if a word can hold it. -/
def ofInt? (n : Int) : Option Number :=
  if h : fitsWord n = true then some (.integer n h) else none

/-- The number, if it is finite. -/
def ofBinary64? (x : Binary64) : Option Number :=
  if h : x.isFinite = true then some (.float x h) else none

theorem fitsWord_toNat (w : UInt64) : fitsWord w.toNat = true := by
  have := w.toNat_lt
  simp [fitsWord]
  omega

def ofWord (w : UInt64) : Number := .integer w.toNat (fitsWord_toNat w)

instance : Inhabited Number := ⟨ofWord 0⟩

def render : Number → String
  | .integer n _ => toString n
  | .float x _ => Binary64.Layout.json.render x

/-- The value as an unsigned word, if it is one. -/
def word? : Number → Option UInt64
  | .integer n _ => if 0 ≤ n && n < 0x10000000000000000 then some (.ofNat n.toNat) else none
  | .float _ _ => none

end Number

end Lineage
