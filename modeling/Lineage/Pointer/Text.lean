import Lineage.Pointer.Basic
import Lineage.Text.Quoted

/-! The text of pointers. Every segment is written after a slash; in its token a tilde is written as
tilde zero and a slash as tilde one. -/

namespace Lineage

/-- What is wrong with a text that is no pointer. -/
inductive PointerFault where
  | noLeadingSlash
  | strayTilde
deriving DecidableEq, Inhabited

/-- A text that is no pointer. -/
structure PointerError where
  text : String
  fault : PointerFault
deriving DecidableEq, Inhabited

def PointerFault.message : PointerFault → String
  | .noLeadingSlash => "must be empty or start with '/'"
  | .strayTilde => "'~' must be followed by '0' or '1'"

def PointerError.message (e : PointerError) : String :=
  "malformed pointer " ++ Text.quoted e.text ++ ": " ++ e.fault.message

namespace Pointer

def escapedChar (c : Char) : List Char :=
  if c = '~' then ['~', '0'] else if c = '/' then ['~', '1'] else [c]

def escape (cs : List Char) : List Char := cs.flatMap escapedChar

/-- Refuses a tilde that neither zero nor one follows. -/
def unescape? : List Char → Option (List Char)
  | [] => some []
  | '~' :: '0' :: rest => (unescape? rest).map ('~' :: ·)
  | '~' :: '1' :: rest => (unescape? rest).map ('/' :: ·)
  | c :: rest => if c = '~' then none else (unescape? rest).map (c :: ·)

/-- The pieces of a text between its slashes: the first one, and the others. -/
def splitSlashes : List Char → List Char × List (List Char)
  | [] => ([], [])
  | c :: rest =>
    let (piece, pieces) := splitSlashes rest
    if c = '/' then ([], piece :: pieces) else (c :: piece, pieces)

def readSegment? (piece : List Char) : Option Segment :=
  (unescape? piece).map fun cs => Segment.ofToken (String.ofList cs)

def segmentChars (s : Segment) : List Char := '/' :: escape s.token.toList

def render (p : Pointer) : String := String.ofList (p.segments.flatMap segmentChars)

def parse (text : String) : Except PointerError Pointer :=
  match text.toList with
  | [] => .ok root
  | '/' :: rest =>
    let (piece, pieces) := splitSlashes rest
    match (piece :: pieces).mapM readSegment? with
    | some segments => .ok ⟨segments⟩
    | none => .error ⟨text, .strayTilde⟩
  | _ => .error ⟨text, .noLeadingSlash⟩

instance : ToString Pointer := ⟨render⟩

@[simp] theorem render_root : root.render = "" := rfl

end Pointer

end Lineage
