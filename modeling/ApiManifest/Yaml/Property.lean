import ApiManifest.Text.Hex
import ApiManifest.Yaml.Source

/-!
The spelling of anchors, tags and directives. A tag is a handle and the octets of a URI, in which a
percent sign starts an escaped octet; escaped octets must come in the groups that UTF-8 makes of a
character, though nothing more is asked of them.
-/

set_option autoImplicit false

namespace ApiManifest.Yaml

/-- Holds of ASCII letters and digits, the low line and the hyphen. -/
def isWordChar (c : Char) : Bool := c.isAlphanum || c == '_' || c == '-'

/-- Splits the word characters off the head of a text. -/
def splitWord (gs : Glyphs) : List Char × Glyphs :=
  let (word, rest) := gs.span fun g => isWordChar g.char
  (word.map Glyph.char, rest)

/-- Reads the name of an anchor or alias after its mark. -/
def anchorName (gs : Glyphs) : Except Error (List Char × Glyphs) :=
  let (name, rest) := splitWord gs
  let ended := gapAhead rest || "?:,]\x7d%@".toList.any (headIs · rest) || headIs '\x60' rest
  if name.isEmpty || !ended then .error .property else .ok (name, rest)

/-- Holds of the characters of a URI other than a percent sign. The brackets and the comma belong to
them only in a URI that has marks at both ends. -/
def isUriChar (enclosed : Bool) (c : Char) : Bool :=
  isWordChar c || ";/?:@&=+$.!~*'()".toList.contains c ||
    (enclosed && (c == ',' || c == '[' || c == ']'))

/-- The number of octets of a character that starts with the given octet. -/
def leadWidth? (n : Nat) : Option Nat :=
  if n < 0x80 then some 1
  else if n < 0xC0 then none
  else if n < 0xE0 then some 2
  else if n < 0xF0 then some 3
  else if n < 0xF8 then some 4
  else none

/-- Reads the octets of a URI, last octet first in `read`. `missing` octets have still to come as
escapes to complete a character. -/
def uriOctets (enclosed : Bool) (missing : Nat) (read : List UInt8) :
    Glyphs → Except Error (List UInt8 × Glyphs)
  | [] => if missing = 0 then .ok (read.reverse, []) else .error .property
  | p :: rest =>
    if p.char == '%' then
      match rest with
      | a :: b :: rest =>
        match Text.hexValue? a.char, Text.hexValue? b.char with
        | some high, some low =>
          let n := 16 * high + low
          if missing = 0 then
            match leadWidth? n with
            | some width => uriOctets enclosed (width - 1) (UInt8.ofNat n :: read) rest
            | none => .error .property
          else if 0x80 ≤ n ∧ n < 0xC0 then
            uriOctets enclosed (missing - 1) (UInt8.ofNat n :: read) rest
          else .error .property
        | _, _ => .error .property
      | _ => .error .property
    else if missing ≠ 0 then .error .property
    else if isUriChar enclosed p.char then
      uriOctets enclosed 0 (UInt8.ofNat p.char.toNat :: read) rest
    else .ok (read.reverse, p :: rest)

/-- A URI ends at its first octet zero. -/
def uri (enclosed : Bool) (gs : Glyphs) : Except Error (List UInt8 × Glyphs) := do
  let (octets, rest) ← uriOctets enclosed 0 [] gs
  return (octets.takeWhile (· != 0), rest)

/-- Reads a handle after its first exclamation mark: word characters and a second mark. Without the
second mark the handle is open and belongs to the URI that follows. -/
def tagHandle (gs : Glyphs) : List Char × Bool × Glyphs :=
  let (word, rest) := splitWord gs
  match rest with
  | g :: rest => if g.char == '!' then (word, true, rest) else (word, false, g :: rest)
  | [] => (word, false, [])

/-- The octets of ASCII characters. -/
def asciiOctets (cs : List Char) : List UInt8 := cs.map fun c => UInt8.ofNat c.toNat

/-- Whether a URI has a character to start with. -/
def uriAhead (enclosed : Bool) : Glyphs → Bool
  | [] => false
  | g :: _ => g.char == '%' || isUriChar enclosed g.char

/-- Reads a tag after its exclamation mark. Its handle is empty when the URI is complete in itself,
as it is between angle brackets and for the tag that is an exclamation mark alone. -/
def tagAfterMark (flow : Bool) (gs : Glyphs) :
    Except Error (List Char × List UInt8 × Glyphs) := do
  let (handle, suffix, rest) ← show Except Error _ from
    if headIs '<' gs then do
      let inner := gs.drop 1
      if !uriAhead true inner then throw .property
      let (suffix, rest) ← uri true inner
      if headIs '>' rest then pure ([], suffix, rest.drop 1) else throw .property
    else do
      let (word, closed, rest) := tagHandle gs
      if closed then
        if !uriAhead false rest then throw .property
        let (suffix, rest) ← uri false rest
        pure ('!' :: word ++ ['!'], suffix, rest)
      else
        let (more, rest) ← uri false rest
        let suffix := asciiOctets word ++ more
        pure (if suffix.isEmpty then ([], asciiOctets ['!'], rest) else (['!'], suffix, rest))
  if gapAhead rest || (flow && headIs ',' rest) then return (handle, suffix, rest)
  else throw .property

/-- Splits digits off the head of a text. -/
def splitNumber (gs : Glyphs) : List Char × Glyphs :=
  let (digits, rest) := gs.span fun g => g.char.isDigit
  (digits.map Glyph.char, rest)

/-- Reads one number of a version: one to nine digits. -/
def versionNumber (gs : Glyphs) : Except Error (Nat × Glyphs) :=
  let (digits, rest) := splitNumber gs
  if digits.isEmpty || digits.length > 9 then .error .directive
  else .ok (digits.foldl (fun n c => 10 * n + (c.toNat - 48)) 0, rest)

/-- Drops spaces and tabs. -/
def dropBlanks (gs : Glyphs) : Glyphs := gs.dropWhile fun g => isBlank g.char

/-- Reads the numbers of a version directive. -/
def versionDirective (gs : Glyphs) : Except Error ((Nat × Nat) × Glyphs) := do
  let (major, rest) ← versionNumber (dropBlanks gs)
  if headIs '.' rest then
    let (minor, rest) ← versionNumber (rest.drop 1)
    return ((major, minor), rest)
  else throw .directive

/-- Reads the handle and the URI of a tag directive. -/
def tagDirective (gs : Glyphs) : Except Error ((List Char × List UInt8) × Glyphs) := do
  let gs := dropBlanks gs
  if !headIs '!' gs then throw .directive
  let (word, closed, rest) := tagHandle (gs.drop 1)
  if !closed && !word.isEmpty then throw .directive
  let handle := '!' :: word ++ (if closed then ['!'] else [])
  match rest with
  | g :: _ =>
    if !isBlank g.char then throw .directive
    let rest := dropBlanks rest
    if !uriAhead true rest then throw .directive
    let (octets, rest) ← uri true rest
    if gapAhead rest then return ((handle, octets), rest) else throw .directive
  | [] => throw .directive

end ApiManifest.Yaml
