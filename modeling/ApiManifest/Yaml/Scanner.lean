import ApiManifest.Yaml.Property
import ApiManifest.Yaml.Scalar.Block
import ApiManifest.Yaml.Scalar.Plain
import ApiManifest.Yaml.Scalar.Quoted
import ApiManifest.Yaml.Token

/-!
From glyphs to tokens. A scanner reads one token after another. Where a key may start it remembers
how many tokens there are, and when a colon turns up the key token is put in at that place, with the
start of a mapping before it when the key is indented deeper than the collections that are open.
-/

set_option autoImplicit false

namespace ApiManifest.Yaml

/-- A place where a key may have started: how many tokens precede it, where it stands, and whether
nothing but a key can stand there. -/
structure KeyMark where
  tokensBefore : Nat
  line : Nat
  column : Nat
  required : Bool

/-- A scanner between two tokens. -/
structure Scanner where
  rest : Glyphs
  /-- The tokens read so far, the last one first. -/
  tokens : List Token
  /-- How many tokens are read. -/
  count : Nat
  /-- The indentation of the innermost open block collection, -1 outside of all. -/
  indent : Int
  /-- The indentations of the block collections around it. -/
  indents : List Int
  /-- Whether a key may start here. -/
  keyAllowed : Bool
  /-- The key mark of the innermost flow collection, or of the block level outside of all. -/
  mark : Option KeyMark
  /-- The key marks of the levels around it, one for each open flow collection. -/
  marks : List (Option KeyMark)

namespace Scanner

/-- A scanner before the first token. -/
def start (gs : Glyphs) : Scanner :=
  { rest := gs, tokens := [], count := 0, indent := -1, indents := [], keyAllowed := true,
    mark := none, marks := [] }

/-- Whether the scanner is inside a flow collection. -/
def inFlow (s : Scanner) : Bool := !s.marks.isEmpty

def push (t : Token) (s : Scanner) : Scanner :=
  { s with tokens := t :: s.tokens, count := s.count + 1 }

/-- Puts a token in after the first `n` ones. -/
def insertAt (n : Nat) (t : Token) (s : Scanner) : Scanner :=
  let later := s.count - n
  { s with tokens := s.tokens.take later ++ t :: s.tokens.drop later, count := s.count + 1 }

/-- Passes over blanks, breaks and comments. A tab is no blank where it would indent. Gives the rest
and whether a key may start there. -/
def dropGap (flow : Bool) (keyAllowed : Bool) (comment : Bool) : Glyphs → Glyphs × Bool
  | [] => ([], keyAllowed)
  | g :: rest =>
    if isBreak g.char then dropGap flow (keyAllowed || !flow) false rest
    else if comment then dropGap flow keyAllowed true rest
    else if g.char == ' ' || (g.char == '\t' && (flow || !keyAllowed)) ||
        (g.char == '\uFEFF' && g.column == 0) then
      dropGap flow keyAllowed false rest
    else if g.char == '#' then dropGap flow keyAllowed true rest
    else (g :: rest, keyAllowed)

/-- A key ends on its line and within 1024 characters; a mark that is past that is dropped. -/
def expire (g : Glyph) (mark : Option KeyMark) : Except Error (Option KeyMark) :=
  match mark with
  | some m =>
    if m.line < g.line || m.column + 1024 < g.column then
      if m.required then .error .keyWithoutColon else .ok none
    else .ok mark
  | none => .ok none

/-- Drops the marks of keys that cannot be completed at the given glyph. -/
def expireMarks (g : Glyph) (s : Scanner) : Except Error Scanner := do
  let mark ← expire g s.mark
  let marks ← s.marks.mapM (expire g)
  return { s with mark, marks }

/-- Closes the block collections that are indented deeper than the column. -/
def closeBlocks (column : Int) (s : Scanner) : List Int → Scanner
  | [] => { s with indents := [] }
  | outer :: indents =>
    if column < s.indent then
      closeBlocks column { s.push .blockEnd with indent := outer } indents
    else { s with indents := outer :: indents }

/-- Closes the block collections that end before the column; a flow collection has no
indentation. -/
def unroll (column : Int) (s : Scanner) : Scanner :=
  if s.inFlow then s else closeBlocks column s s.indents

/-- Opens a block collection at the column if it is deeper than the open ones; its start token comes
after the first `n` tokens. -/
def roll (column : Nat) (n : Nat) (t : Token) (s : Scanner) : Scanner :=
  if !s.inFlow && decide (s.indent < (column : Int)) then
    { s.insertAt n t with indent := column, indents := s.indent :: s.indents }
  else s

/-- Gives up the mark of the innermost level. -/
def dropMarkHere (s : Scanner) : Except Error Scanner :=
  match s.mark with
  | some m => if m.required then .error .keyWithoutColon else .ok { s with mark := none }
  | none => .ok s

/-- Remembers that a key may start at the glyph. -/
def saveMark (g : Glyph) (s : Scanner) : Except Error Scanner :=
  if s.keyAllowed then do
    let s ← s.dropMarkHere
    let required := !s.inFlow && s.indent == (g.column : Int)
    return { s with mark := some ⟨s.count, g.line, g.column, required⟩ }
  else .ok s

/-- Opens a flow collection; a key may start in it. -/
def openFlow (t : Token) (s : Scanner) : Scanner :=
  { s.push t with mark := none, marks := s.mark :: s.marks, keyAllowed := true }

/-- Closes a flow collection. -/
def closeFlow (t : Token) (s : Scanner) : Except Error Scanner := do
  let s ← s.dropMarkHere
  let s := match s.marks with
    | mark :: marks => { s with mark, marks }
    | [] => s
  return { s.push t with keyAllowed := false }

/-- A dash that starts an item of a block sequence. -/
def blockEntry (g : Glyph) (s : Scanner) : Except Error Scanner := do
  if !s.inFlow && !s.keyAllowed then throw .collectionHere
  let s ← (s.roll g.column s.count .blockSequenceStart).dropMarkHere
  return { s.push .blockEntry with keyAllowed := true }

/-- A question mark that starts a key. -/
def keyEntry (g : Glyph) (s : Scanner) : Except Error Scanner := do
  if !s.inFlow && !s.keyAllowed then throw .collectionHere
  let s ← (s.roll g.column s.count .blockMappingStart).dropMarkHere
  return { s.push .key with keyAllowed := !s.inFlow }

/-- A colon that starts a value. With a key mark it turns what follows the mark into a key. -/
def valueEntry (g : Glyph) (s : Scanner) : Except Error Scanner :=
  match s.mark with
  | some m =>
    let s := (s.insertAt m.tokensBefore .key).roll m.column m.tokensBefore .blockMappingStart
    .ok { s.push .value with mark := none, keyAllowed := false }
  | none => do
    if !s.inFlow && !s.keyAllowed then throw .collectionHere
    let s := s.roll g.column s.count .blockMappingStart
    return { s.push .value with keyAllowed := !s.inFlow }

/-- A directive, after its percent sign. -/
def directive (gs : Glyphs) : Except Error (Token × Glyphs) := do
  let (name, rest) := splitWord gs
  if !gapAhead rest then throw .directive
  let (token, rest) ← show Except Error _ from
    if name == "YAML".toList then do
      let ((major, minor), rest) ← versionDirective rest
      pure (Token.version major minor, rest)
    else if name == "TAG".toList then do
      let ((handle, uri), rest) ← tagDirective rest
      pure (Token.tagDirective handle uri, rest)
    else throw .directive
  match endLine? rest with
  | some rest => return (token, rest)
  | none => throw .directive

/-- Reads a token that takes a whole line start: it closes all block collections. -/
def atMargin (s : Scanner) : Except Error Scanner := do
  let s ← (s.unroll (-1)).dropMarkHere
  return { s with keyAllowed := false }

/-- Takes a token that was read up to the given rest. -/
def take (t : Token) (rest : Glyphs) (s : Scanner) : Scanner := { s.push t with rest }

/-- Holds of the characters that start no plain scalar. -/
def isIndicator (c : Char) : Bool := "-?:,[]\x7b\x7d#&*!|>'\"%@".toList.contains c || c == '\x60'

/-- Reads the token that starts at the glyph `g`, `rest` being what follows it. -/
def token (g : Glyph) (rest : Glyphs) (s : Scanner) : Except Error Scanner :=
  let here := g :: rest
  if g.column == 0 && g.char == '%' then do
    let s ← s.atMargin
    let (t, rest) ← directive rest
    return s.take t rest
  else if markAhead '-' here then do
    return (← s.atMargin).take .documentStart (rest.drop 2)
  else if markAhead '.' here then do
    return (← s.atMargin).take .documentEnd (rest.drop 2)
  else match g.char with
  | '[' => do return { (← s.saveMark g).openFlow .flowSequenceStart with rest }
  | '\x7b' => do return { (← s.saveMark g).openFlow .flowMappingStart with rest }
  | ']' => do return { ← s.closeFlow .flowSequenceEnd with rest }
  | '\x7d' => do return { ← s.closeFlow .flowMappingEnd with rest }
  | ',' => do return { (← s.dropMarkHere).push .flowEntry with rest, keyAllowed := true }
  | '*' => do
    let s ← s.saveMark g
    let (name, rest) ← anchorName rest
    return { s.take (.alias name) rest with keyAllowed := false }
  | '&' => do
    let s ← s.saveMark g
    let (name, rest) ← anchorName rest
    return { s.take (.anchor name) rest with keyAllowed := false }
  | '!' => do
    let s ← s.saveMark g
    let (handle, suffix, rest) ← tagAfterMark s.inFlow rest
    return { s.take (.tag handle suffix) rest with keyAllowed := false }
  | '\'' => do
    let s ← s.saveMark g
    let (text, rest) ← singleQuoted [] .empty rest
    return { s.take (.scalar .marked (String.ofList text)) rest with keyAllowed := false }
  | '"' => do
    let s ← s.saveMark g
    let (text, rest) ← doubleQuoted [] .empty .between rest
    return { s.take (.scalar .marked (String.ofList text)) rest with keyAllowed := false }
  | c =>
    if c == '-' && gapAhead rest then do return { ← s.blockEntry g with rest }
    else if c == '?' && (s.inFlow || gapAhead rest) then do return { ← s.keyEntry g with rest }
    else if c == ':' && (s.inFlow || gapAhead rest) then do return { ← s.valueEntry g with rest }
    else if (c == '|' || c == '>') && !s.inFlow then do
      let s ← s.dropMarkHere
      let (text, rest) ← blockScalar (c == '>') s.indent rest
      return { s.take (.scalar .marked (String.ofList text)) rest with keyAllowed := true }
    else if !(isBlank c || isIndicator c) || c == '-' ||
      ((c == '?' || c == ':') && !s.inFlow) then do
      let s ← s.saveMark g
      let p ← plainScalar s.inFlow (s.indent + 1) [] .empty false here
      return { s.take (.scalar .plain (String.ofList p.text)) p.rest with
        keyAllowed := p.lineEnded }
    else .error .noToken

/-- The tokens of the text, when the scanner has come to its end. -/
def finish (s : Scanner) : Except Error (List Token) := do
  let s ← (s.unroll (-1)).dropMarkHere
  return (s.push .streamEnd).tokens.reverse

/-- Reads the tokens that are left. The number bounds them. -/
def run : Nat → Scanner → Except Error (List Token)
  | 0, _ => .error .noToken
  | bound + 1, s =>
    let (rest, keyAllowed) := dropGap s.inFlow s.keyAllowed false s.rest
    let s := { s with rest, keyAllowed }
    match rest with
    | [] => s.finish
    | g :: rest =>
      match s.expireMarks g with
      | .error e => .error e
      | .ok s =>
        match (s.unroll g.column).token g rest with
        | .error e => .error e
        | .ok s => run bound s

end Scanner

/-- The tokens of a text. Every token but the last takes a character, or stands for a character that
opens or closes a collection. -/
def scan (gs : Glyphs) : Except Error (List Token) :=
  (Scanner.start gs).run (gs.length + 1)

end ApiManifest.Yaml
