import Lineage.Yaml.Resolution
import Lineage.Text.Quoted

/-! Written forms of strings in YAML block text: plain where that reads back as the same string,
otherwise between single quotes, between double quotes with escapes, or as a literal block. -/

namespace Lineage.Yaml

/-- The written forms of a string. -/
inductive Style where
  | plain
  | singleQuoted
  | doubleQuoted
  | literal
deriving DecidableEq

/-- Characters that stand unescaped in text: all but controls other than the line feed, the mark of
byte order, and the two last code points of the first plane. -/
def isWritable (c : Char) : Bool :=
  let n := c.toNat
  n == 0x0A || (0x20 ≤ n && n ≤ 0x7E) || (0xA0 ≤ n && n ≤ 0xFFFD && n != 0xFEFF) || 0x10000 ≤ n

/-- Characters that end a line. -/
def isBreak (c : Char) : Bool :=
  c == '\n' || c == '\r' || c.toNat == 0x85 || c.toNat == 0x2028 || c.toNat == 0x2029

/-- Blanks, line ends, or the end of the text. -/
def endsToken : List Char → Bool
  | [] => true
  | c :: _ => c == ' ' || c == '\t' || isBreak c

/-- Characters that cannot start a plain string. -/
def isIndicator (c : Char) : Bool := "#,[]\x7b\x7d&*!|>'\"%@\x60".toList.contains c

/-- Whether the rest of a string holds a mark that means something in block text: a colon before a
blank or at the end, or a hash after a blank. -/
def marksInside : Bool → List Char → Bool
  | _, [] => false
  | afterBlank, c :: rest =>
    (c == ':' && endsToken rest) || (c == '#' && afterBlank)
      || marksInside (c == ' ' || c == '\t' || isBreak c) rest

/-- Whether a string would be taken for something else if it were written plainly in block text. -/
def hasMarks (cs : List Char) : Bool :=
  match cs with
  | [] => false
  | c :: rest =>
    "---".toList.isPrefixOf cs || "...".toList.isPrefixOf cs || isIndicator c
      || ((c == '?' || c == ':' || c == '-') && endsToken rest)
      || marksInside (c == ' ' || c == '\t') rest

/-- A blank directly before a line end. -/
def blankBeforeBreak : List Char → Bool
  | a :: b :: rest => (a == ' ' && isBreak b) || blankBeforeBreak (b :: rest)
  | _ => false

/-- A blank directly after a line end. -/
def blankAfterBreak : List Char → Bool
  | a :: b :: rest => (isBreak a && b == ' ') || blankAfterBreak (b :: rest)
  | _ => false

/-- The form in which a string is written, as a key on one line or elsewhere. -/
def style (isKey : Bool) (cs : List Char) : Style :=
  let escaped := blankBeforeBreak cs || cs.any (fun c => !isWritable c)
  if cs.contains '\n' then
    if escaped || isKey || cs.getLast? = some ' ' then .doubleQuoted else .literal
  else if escaped || blankAfterBreak cs then .doubleQuoted
  else if isTyped cs || cs.any isBreak || cs.head? = some ' ' || cs.getLast? = some ' '
      || hasMarks cs then .singleQuoted
  else .plain

def padded (width : Nat) (digits : List Char) : List Char :=
  List.replicate (width - digits.length) '0' ++ digits.map Char.toUpper

/-- A character between double quotes. -/
def escaped (c : Char) : List Char :=
  let n := c.toNat
  if c == '"' || c == '\\' then ['\\', c]
  else if isWritable c && !isBreak c then [c]
  else match n with
    | 0 => ['\\', '0']
    | 7 => ['\\', 'a']
    | 8 => ['\\', 'b']
    | 9 => ['\\', 't']
    | 10 => ['\\', 'n']
    | 11 => ['\\', 'v']
    | 12 => ['\\', 'f']
    | 13 => ['\\', 'r']
    | 27 => ['\\', 'e']
    | 0x85 => ['\\', 'N']
    | 0x2028 => ['\\', 'L']
    | 0x2029 => ['\\', 'P']
    | n =>
      let digits := Text.hexDigits n
      if n ≤ 0xFF then '\\' :: 'x' :: padded 2 digits
      else if n ≤ 0xFFFF then '\\' :: 'u' :: padded 4 digits
      else '\\' :: 'U' :: padded 8 digits

def spaces (n : Nat) : List Char := List.replicate n ' '

/-- A text whose lines are indented unless they are empty; the first one only if it is at a line
start already. -/
def indented (indent : Nat) (atStart : Bool) : List Char → List Char
  | [] => []
  | c :: rest =>
    if isBreak c then c :: indented indent true rest
    else (if atStart then spaces indent else []) ++ c :: indented indent false rest

/-- Whether a text ends with the end of a line. -/
def endsLine (cs : List Char) : Bool := (cs.getLast?.map isBreak).getD false

/-- A text between single quotes, in which a single quote is written twice. -/
def singleQuoted (indent : Nat) (cs : List Char) : List Char :=
  let body := indented indent false (cs.flatMap fun c => if c == '\'' then ['\'', '\''] else [c])
  '\'' :: body ++ (if endsLine cs then spaces indent else []) ++ ['\'']

/-- What the head of a literal block tells about its blanks: an explicit indentation when the text
starts with a blank or a line end, and how many line ends close the text. -/
def literalHead (cs : List Char) : List Char :=
  let hint := match cs with
    | c :: _ => if c == ' ' || isBreak c then ['2'] else []
    | [] => []
  let chomp := if !endsLine cs then ['-']
    else if cs.dropLast.isEmpty || endsLine cs.dropLast then ['+']
    else []
  '|' :: hint ++ chomp

/-- A literal block. It ends with the line ends of the text. -/
def literal (indent : Nat) (cs : List Char) : List Char :=
  literalHead cs ++ '\n' :: indented indent true cs

/-- The written form of a string whose lines are indented by `indent` from the second one on. -/
def stringChars (isKey : Bool) (indent : Nat) (cs : List Char) : List Char :=
  match style isKey cs with
  | .plain => cs
  | .singleQuoted => singleQuoted indent cs
  | .doubleQuoted => '"' :: cs.flatMap escaped ++ ['"']
  | .literal => literal indent cs

end Lineage.Yaml
