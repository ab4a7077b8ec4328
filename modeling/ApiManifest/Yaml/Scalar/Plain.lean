import ApiManifest.Yaml.Scalar.Gap

/-!
Plain scalars. A plain scalar has no mark at either end: it stops before a colon with a gap after
it, before a comment, before a line that is indented too little, and in a flow collection before
the characters that structure it.
-/

set_option autoImplicit false

namespace ApiManifest.Yaml

/-- Holds of the characters that end a plain scalar in a flow collection. -/
def isFlowIndicator (c : Char) : Bool :=
  c == ',' || c == '[' || c == ']' || c == '\x7b' || c == '\x7d'

/-- Whether a colon before this text is an error in a flow collection. -/
def colonClash : Glyphs → Bool
  | [] => false
  | g :: _ => isFlowIndicator g.char || g.char == '?'

/-- A plain scalar with what follows it, and whether a line break came after it. -/
structure PlainScalar where
  text : List Char
  rest : Glyphs
  lineEnded : Bool

/-- Reads a plain scalar. `read` is the text so far, its last character first, before the gap;
`indent` is the least column of its continuation lines. -/
def plainScalar (flow : Bool) (indent : Int) (read : List Char) (gap : Gap) (inGap : Bool) :
    Glyphs → Except Error PlainScalar
  | [] => .ok ⟨read.reverse, [], gap.isBroken⟩
  | g :: rest =>
    if isBlank g.char then
      if gap.isBroken && decide ((g.column : Int) < indent) && g.char == '\t' then .error .tab
      else plainScalar flow indent read (gap.addBlank g.char) true rest
    else if isBreak g.char then plainScalar flow indent read (gap.addBreak g.char) true rest
    else if inGap && !flow && decide ((g.column : Int) < indent) then
      .ok ⟨read.reverse, g :: rest, gap.isBroken⟩
    else if documentMarkAhead (g :: rest) || (inGap && g.char == '#') then
      .ok ⟨read.reverse, g :: rest, gap.isBroken⟩
    else if flow && g.char == ':' && colonClash rest then .error .colon
    else if (g.char == ':' && gapAhead rest) || (flow && isFlowIndicator g.char) then
      .ok ⟨read.reverse, g :: rest, gap.isBroken⟩
    else plainScalar flow indent (g.char :: gap.flush read) .empty false rest

end ApiManifest.Yaml
