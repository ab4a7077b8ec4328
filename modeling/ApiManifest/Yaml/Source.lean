import ApiManifest.Text.Utf8
import ApiManifest.Yaml.Error

/-!
The characters of a YAML text. Octets are decoded as UTF-8; every character must be one that YAML
allows; and carriage returns and U+0085 become line feeds, so that a break is one character from
here on. A glyph is a character with its place: the number of breaks before it, and of characters
since the last of them, a byte order mark being one of these.
-/

set_option autoImplicit false

namespace ApiManifest.Yaml

/-- Holds of the characters that may stand in a YAML text. -/
def isAllowed (c : Char) : Bool :=
  let n := c.toNat
  n == 0x09 || n == 0x0A || n == 0x0D || (0x20 ≤ n && n ≤ 0x7E) || n == 0x85 ||
    (0xA0 ≤ n && n ≤ 0xFFFD) || 0x10000 ≤ n

/-- The characters of octets. -/
def decodeOctets (bytes : List UInt8) : Except Error (List Char) :=
  match Text.decode? bytes with
  | some cs => .ok cs
  | none => .error .encoding

/-- Holds of the characters that end a line: the line feed and the two Unicode separators. -/
def isBreak (c : Char) : Bool := c == '\n' || c == '\u2028' || c == '\u2029'

/-- Makes a line feed of every carriage return, with the line feed that may follow it, and of every
U+0085. `read` holds the characters before, the last one first. -/
def normaliseBreaks (read : List Char) : List Char → List Char
  | [] => read.reverse
  | '\r' :: '\n' :: rest => normaliseBreaks ('\n' :: read) rest
  | c :: rest => normaliseBreaks ((if c == '\r' || c == '\u0085' then '\n' else c) :: read) rest

/-- A character with its place. -/
structure Glyph where
  char : Char
  line : Nat
  column : Nat
  deriving DecidableEq, Repr

/-- A rest of a text. -/
abbrev Glyphs := List Glyph

/-- Gives every character its place, the first one standing at the given line and column. `read`
holds the glyphs before, the last one first. -/
def placeFrom (line column : Nat) (read : Glyphs) : List Char → Glyphs
  | [] => read.reverse
  | c :: rest =>
    let read := ⟨c, line, column⟩ :: read
    if isBreak c then placeFrom (line + 1) 0 read rest
    else placeFrom line (column + 1) read rest

/-- The glyphs of a text whose characters YAML allows. -/
def glyphs (cs : List Char) : Except Error Glyphs :=
  if cs.all isAllowed then .ok (placeFrom 0 0 [] (normaliseBreaks [] cs)) else .error .character

/-- Holds of spaces and tabs. -/
def isBlank (c : Char) : Bool := c == ' ' || c == '\t'

/-- Whether the text ends, or a line ends, or a space or tab stands at its head. -/
def gapAhead : Glyphs → Bool
  | [] => true
  | g :: _ => isBlank g.char || isBreak g.char

/-- Whether the given character stands at the head of the text. -/
def headIs (c : Char) : Glyphs → Bool
  | [] => false
  | g :: _ => g.char == c

/-- Whether three of the given character stand at the start of a line with a gap after them. -/
def markAhead (c : Char) : Glyphs → Bool
  | x :: y :: z :: rest =>
    x.column == 0 && x.char == c && y.char == c && z.char == c && gapAhead rest
  | _ => false

/-- Whether a line starts here that starts or ends a document. -/
def documentMarkAhead (gs : Glyphs) : Bool := markAhead '-' gs || markAhead '.' gs

/-- Drops spaces and tabs and then a comment, up to the end of the line. -/
def dropTrailer (gs : Glyphs) : Glyphs :=
  match gs.dropWhile fun g => isBlank g.char with
  | g :: rest =>
    if g.char == '#' then rest.dropWhile fun g => !isBreak g.char else g :: rest
  | [] => []

/-- Drops a trailer and the break after it; nothing else may stand on the line. -/
def endLine? (gs : Glyphs) : Option Glyphs :=
  match dropTrailer gs with
  | [] => some []
  | g :: rest => if isBreak g.char then some rest else none

end ApiManifest.Yaml
