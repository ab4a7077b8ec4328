import ApiManifest.Text.Hex
import ApiManifest.Yaml.Scalar.Gap

/-!
Quoted scalars. Between single quotes only the quote itself needs a spelling, two of it; between
double quotes a backslash starts an escape, which may also take away a line break.
-/

set_option autoImplicit false

namespace ApiManifest.Yaml

/-- Reads a scalar after its opening single quote. `read` is the text so far, its last character
first, before the gap. -/
def singleQuoted (read : List Char) (gap : Gap) : Glyphs → Except Error (List Char × Glyphs)
  | [] => .error .unclosed
  | g :: rest =>
    if isBlank g.char then singleQuoted read (gap.addBlank g.char) rest
    else if isBreak g.char then singleQuoted read (gap.addBreak g.char) rest
    else if documentMarkAhead (g :: rest) then .error .unclosed
    else if g.char == '\'' then
      match rest with
      | [] => .ok ((gap.flush read).reverse, [])
      | q :: rest =>
        if q.char == '\'' then singleQuoted ('\'' :: gap.flush read) .empty rest
        else .ok ((gap.flush read).reverse, q :: rest)
    else singleQuoted (g.char :: gap.flush read) .empty rest

/-- The character that a backslash and the given one stand for. -/
def shortEscape? (c : Char) : Option Char :=
  match c with
  | '0' => some '\x00'
  | 'a' => some '\x07'
  | 'b' => some '\x08'
  | 't' => some '\t'
  | '\t' => some '\t'
  | 'n' => some '\n'
  | 'v' => some '\x0b'
  | 'f' => some '\x0c'
  | 'r' => some '\r'
  | 'e' => some '\x1b'
  | ' ' => some ' '
  | '"' => some '"'
  | '/' => some '/'
  | '\\' => some '\\'
  | 'N' => some '\u0085'
  | '_' => some '\u00a0'
  | 'L' => some '\u2028'
  | 'P' => some '\u2029'
  | _ => none

/-- How many hexadecimal digits follow a backslash and the given character. -/
def escapeWidth? (c : Char) : Option Nat :=
  match c with
  | 'x' => some 2
  | 'u' => some 4
  | 'U' => some 8
  | _ => none

/-- The character with the given number, which must be neither a surrogate nor too great. -/
def charOfNumber? (n : Nat) : Option Char :=
  if 0xD800 ≤ n ∧ n ≤ 0xDFFF ∨ 0x10FFFF < n then none else some (Char.ofNat n)

/-- Where a reader of a double-quoted scalar stands: between characters, after a backslash, or in a
numbered escape with so many digits missing. -/
inductive EscapeState where
  | between
  | backslash
  | digits (missing : Nat) (value : Nat)

/-- Reads a scalar after its opening double quote. `read` is the text so far, its last character
first, before the gap. -/
def doubleQuoted (read : List Char) (gap : Gap) (state : EscapeState) :
    Glyphs → Except Error (List Char × Glyphs)
  | [] => .error .unclosed
  | g :: rest =>
    match state with
    | .digits missing value =>
      match Text.hexValue? g.char with
      | none => .error .escape
      | some d =>
        let value := 16 * value + d
        if missing ≤ 1 then
          match charOfNumber? value with
          | some c => doubleQuoted (c :: read) .empty .between rest
          | none => .error .escape
        else doubleQuoted read gap (.digits (missing - 1) value) rest
    | .backslash =>
      if isBreak g.char then doubleQuoted read (.broken none []) .between rest
      else match shortEscape? g.char, escapeWidth? g.char with
        | some c, _ => doubleQuoted (c :: read) .empty .between rest
        | none, some width => doubleQuoted read .empty (.digits width 0) rest
        | none, none => .error .escape
    | .between =>
      if isBlank g.char then doubleQuoted read (gap.addBlank g.char) .between rest
      else if isBreak g.char then doubleQuoted read (gap.addBreak g.char) .between rest
      else if documentMarkAhead (g :: rest) then .error .unclosed
      else if g.char == '"' then .ok ((gap.flush read).reverse, rest)
      else if g.char == '\\' then doubleQuoted (gap.flush read) .empty .backslash rest
      else doubleQuoted (g.char :: gap.flush read) .empty .between rest

end ApiManifest.Yaml
