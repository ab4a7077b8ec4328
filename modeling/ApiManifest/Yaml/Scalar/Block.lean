import ApiManifest.Text.Hex
import ApiManifest.Yaml.Source

/-!
Block scalars. A header tells how the lines are joined (kept, or folded to spaces), what becomes of
the breaks at the end, and perhaps the indentation; without one the indentation is that of the
first line that is not empty, or of a longer empty line before it.
-/

set_option autoImplicit false

namespace ApiManifest.Yaml

/-- What becomes of the line breaks at the end: all go, one stays, or all stay. -/
inductive Chomping where
  | strip
  | clip
  | keep
  deriving DecidableEq

/-- The header of a block scalar: its chomping, and its indentation when it is given. -/
structure BlockHeader where
  chomping : Chomping
  indentation : Option Nat

def chomping? (c : Char) : Option Chomping :=
  if c == '+' then some .keep else if c == '-' then some .strip else none

/-- The value of an indentation indicator, a digit other than zero. -/
def indicator? (c : Char) : Option Nat :=
  if '1' ≤ c ∧ c ≤ '9' then some (c.toNat - 48) else none

/-- Reads a header after its first character and the line break that ends it. Its two indicators
may stand in either order. -/
def blockHeader (gs : Glyphs) : Except Error (BlockHeader × Glyphs) :=
  let digit (gs : Glyphs) : Option Nat × Glyphs := match gs with
    | g :: rest => match indicator? g.char with
      | some n => (some n, rest)
      | none => (none, g :: rest)
    | [] => (none, [])
  let chomp (gs : Glyphs) : Option Chomping × Glyphs := match gs with
    | g :: rest => match chomping? g.char with
      | some c => (some c, rest)
      | none => (none, g :: rest)
    | [] => (none, [])
  let (c, gs) := chomp gs
  let (n, gs) := digit gs
  let (c, gs) := match c, n with
    | none, some _ => chomp gs
    | c, _ => (c, gs)
  match endLine? gs with
  | some rest => .ok (⟨c.getD .clip, n⟩, rest)
  | none => .error .block

/-- Passes over empty lines before the first line to find the indentation. Gives the widest column
reached, the breaks passed, the last one first, and the rest. -/
def leadingLines (widest : Nat) (breaks : List Char) :
    Glyphs → Except Error (Nat × List Char × Glyphs)
  | [] => .ok (widest, breaks, [])
  | g :: rest =>
    if g.char == ' ' then leadingLines widest breaks rest
    else if g.char == '\t' then .error .tab
    else if isBreak g.char then leadingLines (max widest g.column) (g.char :: breaks) rest
    else .ok (max widest g.column, breaks, g :: rest)

/-- The text of a block scalar as far as it is read, last characters first: finished lines, the
break that ended the last of them, and the breaks of empty lines after it. -/
structure BlockLines where
  read : List Char
  lineBreak : Option Char
  breaks : List Char
  /-- Whether the last line starts with a space or a tab. -/
  blankLed : Bool

namespace BlockLines

/-- Joins what was read to a line that starts with the given character. A folded scalar joins two
lines by a space, or by the breaks of the empty lines between them, unless one of the two starts
with a blank. -/
def join (folded : Bool) (b : BlockLines) (first : Char) : List Char :=
  if folded && b.lineBreak == some '\n' && !b.blankLed && !isBlank first then
    if b.breaks.isEmpty then ' ' :: b.read else b.breaks ++ b.read
  else
    match b.lineBreak with
    | some c => b.breaks ++ c :: b.read
    | none => b.breaks ++ b.read

/-- The text when the scalar ends here. -/
def finish (chomping : Chomping) (b : BlockLines) : List Char :=
  let clipped := match b.lineBreak with
    | some c => c :: b.read
    | none => b.read
  match chomping with
  | .strip => b.read.reverse
  | .clip => clipped.reverse
  | .keep => (b.breaks ++ clipped).reverse

end BlockLines

/-- Reads the lines of a block scalar that is indented by `indent`; `inLine` tells that the reader
is past the indentation. -/
def blockLines (folded : Bool) (chomping : Chomping) (indent : Nat) (b : BlockLines)
    (inLine : Bool) : Glyphs → Except Error (List Char × Glyphs)
  | [] => .ok (b.finish chomping, [])
  | g :: rest =>
    if inLine then
      if isBreak g.char then
        blockLines folded chomping indent ⟨b.read, some g.char, [], b.blankLed⟩ false rest
      else
        blockLines folded chomping indent ⟨g.char :: b.read, none, [], b.blankLed⟩ true rest
    else if g.column < indent ∧ g.char = ' ' then
      blockLines folded chomping indent b false rest
    else if g.column < indent ∧ g.char = '\t' then .error .tab
    else if isBreak g.char then
      blockLines folded chomping indent ⟨b.read, b.lineBreak, g.char :: b.breaks, b.blankLed⟩
        false rest
    else if g.column = indent then
      blockLines folded chomping indent
        ⟨g.char :: b.join folded g.char, none, [], isBlank g.char⟩ true rest
    else .ok (b.finish chomping, g :: rest)

/-- Reads a block scalar after its first character, inside a collection that is indented by
`parent`, or by -1 at the top. -/
def blockScalar (folded : Bool) (parent : Int) (gs : Glyphs) :
    Except Error (List Char × Glyphs) := do
  let (header, gs) ← blockHeader gs
  match header.indentation with
  | some n =>
    blockLines folded header.chomping ((max parent 0).toNat + n) ⟨[], none, [], false⟩ false gs
  | none =>
    let (widest, breaks, gs) ← leadingLines 0 [] gs
    let indent := max widest (max (parent + 1).toNat 1)
    blockLines folded header.chomping indent ⟨[], none, breaks, false⟩ false gs

end ApiManifest.Yaml
