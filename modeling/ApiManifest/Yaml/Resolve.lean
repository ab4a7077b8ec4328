import ApiManifest.Json.Basic
import ApiManifest.Number.Layout
import ApiManifest.Text.Hex
import ApiManifest.Text.Utf8
import ApiManifest.Yaml.Node

/-!
What a scalar stands for. A plain scalar without a tag is null, a truth value, a number or text by
its spelling alone; a marked one is text. The standard tags for scalars ask for one of these and
refuse a spelling that does not fit. A tag that starts with an exclamation mark is local and changes
nothing of what the scalar under it stands for.
-/

set_option autoImplicit false

namespace ApiManifest.Yaml

open Number

/-- What a scalar stands for. A whole number that needs more than 64 bits but not more than 128 is
`wide`. -/
inductive Atom where
  | null
  | bool (b : Bool)
  | int (n : Whole)
  | wide
  | float (x : Double)
  | text
  deriving DecidableEq

/-- Holds of the spellings of null other than the empty one. -/
def isNullWord (s : String) : Bool := s == "null" || s == "Null" || s == "NULL" || s == "~"

/-- Reads the spellings of the truth values. -/
def boolOfWord? (s : String) : Option Bool :=
  if s == "true" || s == "True" || s == "TRUE" then some true
  else if s == "false" || s == "False" || s == "FALSE" then some false
  else none

/-- Reads digits of a base of at most sixteen that fill the text. -/
def natInBase? (base : Nat) (cs : List Char) : Option Nat :=
  if cs.isEmpty then none
  else cs.foldlM (fun n c => do
    let d ← Text.hexValue? c
    if d < base then some (base * n + d) else none) 0

/-- Drops one sign. -/
def dropSign : List Char → List Char
  | '-' :: cs => cs
  | '+' :: cs => cs
  | cs => cs

/-- Holds of more than one digit with a zero in front, with or without a sign: such a spelling is
text. -/
def hasLeadingZero (cs : List Char) : Bool :=
  match dropSign cs with
  | '0' :: c :: rest => (c :: rest).all Char.isDigit
  | _ => false

/-- Reads the digits of a whole number without its sign, in the base that they announce. -/
def magnitude? : List Char → Option Nat
  | '0' :: 'x' :: cs => natInBase? 16 cs
  | '0' :: 'o' :: cs => natInBase? 8 cs
  | '0' :: 'b' :: cs => natInBase? 2 cs
  | cs => natInBase? 10 cs

/-- Reads the spelling of a whole number of any size. -/
def integer? (cs : List Char) : Option Int :=
  if hasLeadingZero cs then none
  else match cs with
    | '-' :: cs => (magnitude? cs).map fun n => -(n : Int)
    | '+' :: cs => (magnitude? cs).map Int.ofNat
    | cs => (magnitude? cs).map Int.ofNat

/-- Reads the spelling of a floating-point number: a decimal that is not too great, an infinity with
or without a sign, or NaN. -/
def double? (cs : List Char) : Option Double :=
  let s := String.ofList cs
  let unsigned := match cs with
    | '+' :: cs => String.ofList cs
    | _ => s
  if unsigned == ".inf" || unsigned == ".Inf" || unsigned == ".INF" then some (.infinity false)
  else if s == "-.inf" || s == "-.Inf" || s == "-.INF" then some (.infinity true)
  else if s == ".nan" || s == ".NaN" || s == ".NAN" then some .nan
  else match Numeral.ofChars? cs with
    | some n => if n.toDouble.isFinite then some n.toDouble else none
    | none => none

/-- The whole number, or the mark of one between 64 and 128 bits. -/
def atomOfInteger? (n : Int) : Option Atom :=
  match Whole.ofInt? n with
  | some n => some (.int n)
  | none =>
    if -170141183460469231731687303715884105728 ≤ n ∧
        n < 340282366920938463463374607431768211456 then some .wide
    else none

/-- What a spelling without quotes and without a tag stands for. -/
def atomOfPlain (s : String) : Atom :=
  if s.isEmpty || isNullWord s then .null
  else match boolOfWord? s with
    | some b => .bool b
    | none =>
      match (integer? s.toList).bind atomOfInteger? with
      | some atom => atom
      | none =>
        if hasLeadingZero s.toList then .text
        else match double? s.toList with
          | some x => .float x
          | none => .text

/-- The URIs of the standard tags. -/
def standardTag (name : String) : Tag := Text.octets ("tag:yaml.org,2002:" ++ name)

/-- What a local tag has after its mark, or the mark itself where nothing follows it. Octets that
are not text make no local tag. -/
def localText? (tag : Option Tag) : Option String :=
  match tag with
  | some [33] => some "!"
  | some (33 :: name) => Text.text? name
  | _ => none

/-- The name in a local tag: its text, with one more mark at its head left out. -/
def localName? (tag : Option Tag) : Option String :=
  (localText? tag).map fun name =>
    match name.toList with
    | '!' :: c :: rest => String.ofList (c :: rest)
    | _ => name

/-- What a scalar stands for, its local tag left aside. -/
def atomOfScalar (tag : Option Tag) (style : ScalarStyle) (s : String) : Except Error Atom :=
  let untagged := if style = .plain then atomOfPlain s else .text
  match tag with
  | none => .ok untagged
  | some tag =>
    if tag = standardTag "bool" then
      match boolOfWord? s with
      | some b => .ok (.bool b)
      | none => .error .tag
    else if tag = standardTag "int" then
      match (integer? s.toList).bind atomOfInteger? with
      | some atom => .ok atom
      | none => .error .tag
    else if tag = standardTag "float" then
      match double? s.toList with
      | some x => .ok (.float x)
      | none => .error .tag
    else if tag = standardTag "null" then
      if isNullWord s then .ok .null else .error .tag
    else if tag.head? = some 33 then .ok untagged
    else .ok .text

end ApiManifest.Yaml
