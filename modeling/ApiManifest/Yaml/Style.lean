import ApiManifest.Yaml.Resolve
import ApiManifest.Yaml.Source

/-!
The style in which a text is written as a YAML scalar. A text that would be read as something else
than text is quoted, and a text with a line feed is a literal block. Where the characters of the
text do not let a style stand, the next more capable one takes its place: plain text gives way to
single quotes, and these, like a block, to double quotes, which can write anything.
-/

set_option autoImplicit false

namespace ApiManifest.Yaml

/-- The styles in which a scalar is written. -/
inductive WrittenStyle where
  | plain
  | single
  | double
  | literal
  deriving DecidableEq, Repr

/-- Holds of the characters that a writer shows as they are. -/
def isShown (c : Char) : Bool :=
  let n := c.toNat
  n == 0x0A || (0x20 ≤ n && n ≤ 0x7E) || (0xA0 ≤ n && n ≤ 0xFFFD && n != 0xFEFF) ||
    0x10000 ≤ n

/-- Holds of every character that some reader takes for the end of a line. -/
def endsLine (c : Char) : Bool :=
  c == '\r' || c == '\n' || c == '\u0085' || c == '\u2028' || c == '\u2029'

/-- Whether a character, or the end of the text, separates words. -/
def separates : Option Char → Bool
  | none => true
  | some c => c == ' ' || c == '\t' || c == '\x00' || endsLine c

/-- Holds of a pair of neighbours in the text. -/
def hasNeighbours (p : Char → Char → Bool) : List Char → Bool
  | a :: b :: rest => p a b || hasNeighbours p (b :: rest)
  | _ => false

/-- Whether a character would structure a block after the first one: a colon before a separator or a
number sign after one. -/
def structuresLater (before : Char) : List Char → Bool
  | [] => false
  | c :: rest =>
    (c == ':' && separates rest.head?) || (c == '#' && separates (some before)) ||
      structuresLater c rest

/-- Whether the text would have a structure of its own as a plain scalar of a block. -/
def structures (cs : List Char) : Bool :=
  cs.take 3 == ['-', '-', '-'] || cs.take 3 == ['.', '.', '.'] ||
    match cs with
    | [] => false
    | c :: rest =>
      "#,[]\x7b\x7d&*!|>'\"%@".toList.contains c || c == '\x60' ||
        ((c == '?' || c == ':' || c == '-') && separates rest.head?) || structuresLater c rest

/-- Whether a space or a line end stands at either end of the text. -/
def paddedEnds (cs : List Char) : Bool :=
  [cs.head?, cs.getLast?].any fun
    | some c => c == ' ' || endsLine c
    | none => false

def singleAllowed (cs : List Char) : Bool :=
  cs.all isShown && !hasNeighbours (fun a b => a == ' ' && endsLine b) cs &&
    !hasNeighbours (fun a b => endsLine a && b == ' ') cs

def plainAllowed (cs : List Char) : Bool :=
  singleAllowed cs && !paddedEnds cs && !cs.any endsLine && !structures cs

def literalAllowed (cs : List Char) : Bool :=
  cs.all isShown && !hasNeighbours (fun a b => a == ' ' && endsLine b) cs &&
    cs.getLast? != some ' '

/-- Whether a plain scalar with this spelling might be taken for something else than text. -/
def needsQuotes (s : String) : Bool := atomOfPlain s != .text || hasLeadingZero s.toList

/-- The style in which a text is written. -/
def writtenStyle (s : String) : WrittenStyle :=
  let cs := s.toList
  if cs.contains '\n' then
    if literalAllowed cs then .literal else .double
  else if !needsQuotes s && plainAllowed cs then .plain
  else if singleAllowed cs then .single
  else .double

end ApiManifest.Yaml
