import ApiManifest.Text.Hex
import ApiManifest.Yaml.Style

/-!
Texts written as YAML scalars. `scalarText` gives the scalar as it follows a key; `indent` is the
column of the lines of a block. A scalar fills its line unless it is a block that ends with a break.
-/

set_option autoImplicit false

namespace ApiManifest.Yaml

def spaces (n : Nat) : List Char := List.replicate n ' '

/-- The characters between single quotes: a quote is doubled, and a line that follows a break is
indented. -/
def singleChars (indent : Nat) (afterBreak : Bool) : List Char → List Char
  | [] => if afterBreak then spaces indent else []
  | c :: rest =>
    if endsLine c then c :: singleChars indent true rest
    else if c == ' ' then c :: singleChars indent afterBreak rest
    else
      (if afterBreak then spaces indent else []) ++ (if c == '\'' then ['\'', '\''] else [c]) ++
        singleChars indent false rest

/-- How one character appears between double quotes. -/
def doubleChar (c : Char) : List Char :=
  if isShown c && !endsLine c && c != '"' && c != '\\' then [c]
  else match c with
    | '\x00' => ['\\', '0']
    | '\x07' => ['\\', 'a']
    | '\x08' => ['\\', 'b']
    | '\t' => ['\\', 't']
    | '\n' => ['\\', 'n']
    | '\x0b' => ['\\', 'v']
    | '\x0c' => ['\\', 'f']
    | '\r' => ['\\', 'r']
    | '\x1b' => ['\\', 'e']
    | '"' => ['\\', '"']
    | '\\' => ['\\', '\\']
    | '\u0085' => ['\\', 'N']
    | '\u00a0' => ['\\', '_']
    | '\u2028' => ['\\', 'L']
    | '\u2029' => ['\\', 'P']
    | c =>
      let n := c.toNat
      if n ≤ 0xFF then '\\' :: 'x' :: Text.hexFixed Text.hexDigitUpper 2 n
      else if n ≤ 0xFFFF then '\\' :: 'u' :: Text.hexFixed Text.hexDigitUpper 4 n
      else '\\' :: 'U' :: Text.hexFixed Text.hexDigitUpper 8 n

/-- The lines of a literal block; every line that is not empty is indented. -/
def literalChars (indent : Nat) (afterBreak : Bool) : List Char → List Char
  | [] => []
  | c :: rest =>
    if endsLine c then c :: literalChars indent true rest
    else (if afterBreak then spaces indent else []) ++ c :: literalChars indent false rest

/-- The indentation indicator of a block whose first line starts with a space or is empty. -/
def indentationHint (cs : List Char) : List Char :=
  match cs.head? with
  | some c => if c == ' ' || endsLine c then ['2'] else []
  | none => []

/-- The chomping indicator: none when just one break ends the text. -/
def chompingHint (cs : List Char) : List Char :=
  match cs.reverse with
  | [] => ['-']
  | [c] => if endsLine c then ['+'] else ['-']
  | c :: d :: _ => if !endsLine c then ['-'] else if endsLine d then ['+'] else []

/-- The characters of a text as a scalar. -/
def scalarChars (indent : Nat) (s : String) : List Char :=
  let cs := s.toList
  match writtenStyle s with
  | .plain => cs
  | .single => '\'' :: singleChars indent false cs ++ ['\'']
  | .double => '"' :: cs.flatMap doubleChar ++ ['"']
  | .literal =>
    '|' :: indentationHint cs ++ chompingHint cs ++ '\n' :: literalChars indent true cs

/-- A key and a text as the rest of a line, with the break that ends it. -/
def fieldChars (key : String) (indent : Nat) (s : String) : List Char :=
  let body := scalarChars indent s
  let ended := writtenStyle s == .literal && (s.toList.getLast?.map endsLine).getD false
  key.toList ++ ':' :: ' ' :: body ++ (if ended then [] else ['\n'])

end ApiManifest.Yaml
