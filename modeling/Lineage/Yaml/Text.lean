import Lineage.Yaml.Basic
import Lineage.Yaml.Scalar

/-! YAML block text. Entries of a composite stand on lines of their own, indented by two more blanks
than the composite around it; a sequence that is the value of a one-line key is not indented. A key
that does not fit on a line is marked with `?` and its value with `:`. -/

namespace Lineage.Yaml

def floatChars (x : Binary64) : List Char :=
  if x.isNaN then ".nan".toList
  else if x.isFinite then (Binary64.Layout.yaml.render x).toList
  else if x.isNegative then "-.inf".toList
  else ".inf".toList

/-- Characters that stand for themselves in a tag. -/
def isTagChar (c : Char) : Bool := c.isAlphanum || "-_;/?:@&=+$,.~*'()[]".toList.contains c

def tagChar (c : Char) : List Char :=
  if isTagChar c then [c]
  else (String.singleton c).toUTF8.toList.flatMap fun b => '%' :: padded 2 (Text.hexDigits b.toNat)

/-- A tag with the exclamation mark in front. It ends where a null character stands. -/
def markedTag (tag : String) : List Char :=
  let name := tagName tag
  (if name.head? = some '!' then name else '!' :: name).takeWhile (· != '\x00')

/-- The written form of a tag: the mark and the characters after it. A mark alone is no short form,
so it is escaped like any other character of a tag and stands between angle brackets. -/
def tagChars (tag : String) : List Char :=
  match markedTag tag with
  | '!' :: c :: rest => '!' :: (c :: rest).flatMap tagChar
  | cs => '!' :: '<' :: cs.flatMap tagChar ++ ['>']

/-- Where the text of a value starts. -/
structure Place where
  /-- The indentation of the composite around the value; none at the top. -/
  indent : Option Nat
  /-- The value is a key or a value of a mapping. -/
  inMapping : Bool
  /-- Only indentation and marks stand before the value on its line. -/
  fresh : Bool
  /-- A blank has to separate the value from what stands before it. -/
  attached : Bool
  /-- A tag of the value stands before it. -/
  tagged : Bool := false

def Place.top : Place := { indent := none, inMapping := false, fresh := true, attached := false }

/-- The place of an item of a sequence whose entries are indented by `indent`. -/
def Place.item (indent : Nat) : Place :=
  { indent := some indent, inMapping := false, fresh := true, attached := true }

/-- The place after the mark of an entry of a mapping. -/
def Place.marked (indent : Nat) : Place :=
  { indent := some indent, inMapping := true, fresh := true, attached := true }

/-- The place after a key on the same line. -/
def Place.afterKey (indent : Nat) : Place :=
  { indent := some indent, inMapping := true, fresh := false, attached := true }

/-- The indentation of the entries of a composite. -/
def Place.inner (p : Place) : Nat := (p.indent.map (· + 2)).getD 0

/-- Where the text of the tagged value starts. -/
def Place.afterTag (p : Place) : Place := { p with fresh := false, attached := true, tagged := true }

def Place.separator (p : Place) : List Char := if p.attached then [' '] else []

def lineStart (indent : Nat) : List Char := '\n' :: spaces indent

/-- A text, and another one on the line after it. -/
def above (indent : Nat) (cs next : List Char) : List Char :=
  cs ++ (if endsLine cs then spaces indent else lineStart indent) ++ next

/-- What stands before the first entry of a composite whose entries are indented by `indent`. -/
def Place.opening (p : Place) (indent : Nat) : List Char :=
  if p.fresh then p.separator else lineStart indent

/-- A sequence under a one-line key is not indented. -/
def Place.sequenceIndent (p : Place) : Nat :=
  if p.inMapping && !p.fresh then p.indent.getD 0 else p.inner

/-- Scalars and empty composites, which stand on one line wherever they are. -/
def leafChars? (isKey : Bool) (indent : Nat) : Yaml → Option (List Char)
  | .null => some "null".toList
  | .bool value => some (if value then "true" else "false").toList
  | .integer value _ => some (toString value).toList
  | .float value => some (floatChars value)
  | .string text => some (stringChars isKey indent text.toList)
  | .sequence [] => some ['[', ']']
  | .mapping [] => some ['\x7b', '\x7d']
  | _ => none

/-- The bytes of a scalar before it is quoted; empty composites count for nothing. -/
def bareSize : Yaml → Nat
  | .string text => text.utf8ByteSize
  | .sequence _ => 0
  | .mapping _ => 0
  | value => ((leafChars? true 0 value).getD []).length

/-- Whether a scalar takes more than one line. -/
def isBroken : Yaml → Bool
  | .string text => text.toList.any isBreak
  | _ => false

/-- Keys on one line, of at most 128 bytes before they are quoted, need no mark. -/
def lineKey? : Yaml → Option (List Char)
  | .tagged tag value =>
    let size := (String.ofList (markedTag tag)).utf8ByteSize + bareSize value
    if isBroken value || size > 128 then none
    else (leafChars? true 0 value).map fun cs => tagChars tag ++ ' ' :: cs
  | value =>
    if isBroken value || bareSize value > 128 then none else leafChars? true 0 value

/-- Keys that cannot open the only entry of a mapping without a tag: the mapping would merge with
them. -/
def mergesWithMapping : Yaml → Bool
  | .tagged _ _ => true
  | .mapping [_] => true
  | _ => false

mutual

/-- The text of a value at a place. A tag directly below a tag has no text. -/
def chars? (p : Place) : Yaml → Option (List Char)
  | .sequence (item :: rest) => do
    let indent := p.sequenceIndent
    some (p.opening indent ++ (← itemChars? indent (item :: rest)))
  | .mapping (entry :: rest) => do
    if !p.tagged && rest.isEmpty && mergesWithMapping entry.1 then none
    else some (p.opening p.inner ++ (← entryChars? p.inner (entry :: rest)))
  | .tagged tag value =>
    match value with
    | .tagged _ _ => none
    | value => do some (p.separator ++ tagChars tag ++ (← chars? p.afterTag value))
  | value => do some (p.separator ++ (← leafChars? false (p.indent.getD 0 + 2) value))

def itemChars? (indent : Nat) : List Yaml → Option (List Char)
  | [] => some []
  | item :: rest => do
    let head := '-' :: (← chars? (.item indent) item)
    if rest.isEmpty then some head else some (above indent head (← itemChars? indent rest))

def entryChars? (indent : Nat) : List (Yaml × Yaml) → Option (List Char)
  | [] => some []
  | (key, value) :: rest => do
    let head ← match lineKey? key with
      | some cs => do some (cs ++ ':' :: (← chars? (.afterKey indent) value))
      | none => do
        let head := '?' :: (← chars? (.marked indent) key)
        some (above indent head (':' :: (← chars? (.marked indent) value)))
    if rest.isEmpty then some head else some (above indent head (← entryChars? indent rest))

end

/-- Blanks that do not count at the end of a text. -/
def isTrailing (c : Char) : Bool :=
  let n := c.toNat
  n == 0x20 || (0x09 ≤ n && n ≤ 0x0D) || n == 0x85 || n == 0xA0 || n == 0x1680
    || (0x2000 ≤ n && n ≤ 0x200A) || n == 0x2028 || n == 0x2029 || n == 0x202F || n == 0x205F
    || n == 0x3000

/-- The text of a mapping key: scalars as they read, composites and tagged values as block text
without trailing blanks, and nothing where there is no such text. -/
def keyText : Yaml → String
  | .string text => text
  | .bool value => if value then "true" else "false"
  | .integer value _ => toString value
  | .float value => String.ofList (floatChars value)
  | .null => "null"
  | value =>
    let cs := (chars? .top value).getD []
    String.ofList (cs.reverse.dropWhile isTrailing).reverse

end Lineage.Yaml
