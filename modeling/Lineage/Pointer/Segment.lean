/-! Segments of a pointer. A segment is a member name or an item index, and its token is the text
that both have in common: segments are the same when their tokens are, whichever way they are
spelled. -/

namespace Lineage

/-- Items are counted by unsigned words of 64 bits. -/
def indexBound : Nat := Nat.pow 2 64

/-- A token is canonical when it is a decimal without leading zeros. -/
def isCanonicalIndex (cs : List Char) : Bool :=
  match cs with
  | [] => false
  | ['0'] => true
  | c :: rest => c != '0' && (c :: rest).all Char.isDigit

/-- The index that a token denotes: a canonical decimal below the bound. -/
def readIndex? (token : String) : Option Nat :=
  let cs := token.toList
  let n := Nat.ofDigitChars 10 cs 0
  if isCanonicalIndex cs && n < indexBound then some n else none

inductive Segment where
  | key (name : String)
  | index (position : Nat)
deriving DecidableEq, Inhabited

namespace Segment

/-- The segment of an unescaped token, an index where the token denotes one. -/
def ofToken (token : String) : Segment :=
  match readIndex? token with
  | some n => .index n
  | none => .key token

def token : Segment → String
  | .key name => name
  | .index n => Nat.repr n

def asIndex : Segment → Option Nat
  | .key name => readIndex? name
  | .index n => if n < indexBound then some n else none

/-- Segments with one token are the same segment. Two indices need not be spelled out for that. -/
instance : BEq Segment where
  beq
    | .index m, .index n => m == n
    | a, b => a.token == b.token

/-- No two numbers have the same decimal. -/
theorem repr_inj {m n : Nat} : Nat.repr m = Nat.repr n ↔ m = n := by
  refine ⟨fun h => ?_, fun h => by rw [h]⟩
  have digits : Nat.toDigits 10 m = Nat.toDigits 10 n := by
    simpa [Nat.repr] using congrArg String.toList h
  have value := congrArg (Nat.ofDigitChars 10 · 0) digits
  simpa [Nat.ofDigitChars_toDigits] using value

theorem beq_iff {a b : Segment} : (a == b) = true ↔ a.token = b.token :=
  match a, b with
  | .index m, .index n => (beq_iff_eq (a := m) (b := n)).trans repr_inj.symm
  | .index m, .key t => beq_iff_eq (a := Nat.repr m) (b := t)
  | .key s, .index n => beq_iff_eq (a := s) (b := Nat.repr n)
  | .key s, .key t => beq_iff_eq (a := s) (b := t)

@[simp] theorem token_key (name : String) : (key name).token = name := rfl

theorem token_ofToken (t : String) (h : ∀ n, readIndex? t = some n → Nat.repr n = t) :
    (ofToken t).token = t := by
  unfold ofToken
  split
  · exact h _ ‹_›
  · rfl

end Segment

end Lineage
