import ApiManifest.Json.Basic
import ApiManifest.Number.Layout
import ApiManifest.Text.Hex

/-!
Reading JSON text. The reader accepts the grammar of JSON alone: one value with blanks around its
tokens, strings without raw controls and with paired surrogates, numbers without leading zeros. A
number spelt as an integer that fits 64 bits stays whole, minus zero and all others become doubles.
`read?` keeps the fields of an object as they stand in the text, `parse?` puts them into key order,
the last of repeated keys winning.
-/

set_option autoImplicit false

namespace ApiManifest.Json

open Number

/-- Whether a character is a blank that may stand between tokens. -/
def isWhite (c : Char) : Bool := c == ' ' || c == '\n' || c == '\r' || c == '\t'

/-- Drops the blanks that may stand between tokens. -/
def skipBlanks (cs : List Char) : List Char := cs.dropWhile isWhite

/-- Reads four hexadecimal digits. -/
def hex4? : List Char → Option (Nat × List Char)
  | a :: b :: c :: d :: rest => do
    let a ← Text.hexValue? a
    let b ← Text.hexValue? b
    let c ← Text.hexValue? c
    let d ← Text.hexValue? d
    return (((a * 16 + b) * 16 + c) * 16 + d, rest)
  | _ => none

/-- Reads the digits of a numbered escape; a high surrogate takes its low partner along. -/
def numberedEscape? (cs : List Char) : Option (Char × List Char) := do
  let (n, rest) ← hex4? cs
  if 0xD800 ≤ n ∧ n < 0xDC00 then
    match rest with
    | '\\' :: 'u' :: rest =>
      let (m, rest) ← hex4? rest
      if 0xDC00 ≤ m ∧ m < 0xE000 then
        return (Char.ofNat (0x10000 + (n - 0xD800) * 0x400 + (m - 0xDC00)), rest)
      else none
    | _ => none
  else if 0xDC00 ≤ n ∧ n < 0xE000 then none
  else return (Char.ofNat n, rest)

/-- Reads what follows a backslash. -/
def escape? : List Char → Option (Char × List Char)
  | '"' :: rest => some ('"', rest)
  | '\\' :: rest => some ('\\', rest)
  | '/' :: rest => some ('/', rest)
  | 'b' :: rest => some ('\x08', rest)
  | 'f' :: rest => some ('\x0c', rest)
  | 'n' :: rest => some ('\n', rest)
  | 'r' :: rest => some ('\r', rest)
  | 't' :: rest => some ('\t', rest)
  | 'u' :: rest => numberedEscape? rest
  | _ => none

/-- Reads a string after its opening quote. The number bounds the characters read, and `read` holds
those read so far, the last one first. -/
def stringBody? : Nat → List Char → List Char → Option (String × List Char)
  | 0, _, _ => none
  | _ + 1, _, [] => none
  | bound + 1, read, c :: rest =>
    if c = '"' then some (String.ofList read.reverse, rest)
    else if c = '\\' then
      match escape? rest with
      | some (d, rest) => stringBody? bound (d :: read) rest
      | none => none
    else if c < ' ' then none
    else stringBody? bound (c :: read) rest

/-- The sign in front of an exponent, and what follows it. -/
def splitSign : List Char → Bool × List Char
  | '-' :: rest => (true, rest)
  | '+' :: rest => (false, rest)
  | rest => (false, rest)

/-- Reads the digits of an exponent. -/
def exponentDigits? (negative : Bool) (cs : List Char) : Option (Option Int × List Char) :=
  let (ds, rest) := Numeral.splitDigits cs
  if ds.isEmpty then none
  else some (some (if negative then -(natOfDigits ds : Int) else natOfDigits ds), rest)

/-- Splits an exponent off the front of a text, if one stands there. -/
def exponentPart? (cs : List Char) : Option (Option Int × List Char) :=
  match cs with
  | c :: rest =>
    if c = 'e' ∨ c = 'E' then exponentDigits? (splitSign rest).1 (splitSign rest).2
    else some (none, cs)
  | [] => some (none, [])

/-- Splits a fraction off the front of a text, if one stands there. -/
def fractionPart? (cs : List Char) : Option (Option (List Char) × List Char) :=
  match cs with
  | '.' :: rest =>
    let (ds, rest) := Numeral.splitDigits rest
    if ds.isEmpty then none else some (some ds, rest)
  | rest => some (none, rest)

/-- The value of a number from its parts. -/
def numberOf? (negative : Bool) (whole : List Char) (fraction : Option (List Char))
    (exponent : Option Int) : Option Json :=
  let double := (Numeral.mk negative whole (fraction.getD []) (exponent.getD 0)).toDouble
  let float := (FiniteDouble.of? double).map Json.float
  match fraction, exponent with
  | none, none =>
    let n := natOfDigits whole
    if negative && n == 0 then float
    else match Whole.ofInt? (if negative then -(n : Int) else n) with
      | some n => some (.int n)
      | none => float
  | _, _ => float

/-- Reads a number behind its sign. -/
def unsigned? (negative : Bool) (cs : List Char) : Option (Json × List Char) := do
  let (whole, rest) := Numeral.splitDigits cs
  if whole.isEmpty || (whole.length > 1 && whole.head? == some '0') then none
  let (fraction, rest) ← fractionPart? rest
  let (exponent, rest) ← exponentPart? rest
  let v ← numberOf? negative whole fraction exponent
  return (v, rest)

/-- Reads a number. -/
def number? (cs : List Char) : Option (Json × List Char) :=
  match cs with
  | '-' :: cs => unsigned? true cs
  | cs => unsigned? false cs

mutual

/-- Reads one value. The number bounds the steps of the reader. -/
def value? : Nat → List Char → Option (Json × List Char)
  | 0, _ => none
  | bound + 1, cs =>
    match skipBlanks cs with
    | 'n' :: 'u' :: 'l' :: 'l' :: rest => some (.null, rest)
    | 't' :: 'r' :: 'u' :: 'e' :: rest => some (.bool true, rest)
    | 'f' :: 'a' :: 'l' :: 's' :: 'e' :: rest => some (.bool false, rest)
    | '"' :: rest => (stringBody? bound [] rest).map fun r => (.str r.1, r.2)
    | '[' :: rest =>
      match skipBlanks rest with
      | ']' :: rest => some (.arr [], rest)
      | rest => items? bound [] rest
    | '\x7b' :: rest =>
      match skipBlanks rest with
      | '\x7d' :: rest => some (.obj [], rest)
      | rest => fields? bound [] rest
    | rest => number? rest

/-- Reads the items of an array up to its closing bracket, `read` holding those read so far. -/
def items? : Nat → List Json → List Char → Option (Json × List Char)
  | 0, _, _ => none
  | bound + 1, read, cs =>
    match value? bound cs with
    | none => none
    | some (v, rest) =>
      match skipBlanks rest with
      | ',' :: rest => items? bound (v :: read) rest
      | ']' :: rest => some (.arr (v :: read).reverse, rest)
      | _ => none

/-- Reads the fields of an object up to its closing brace, `read` holding those read so far. -/
def fields? : Nat → List (String × Json) → List Char → Option (Json × List Char)
  | 0, _, _ => none
  | bound + 1, read, cs =>
    match skipBlanks cs with
    | '"' :: rest =>
      match stringBody? bound [] rest with
      | none => none
      | some (k, rest) =>
        match skipBlanks rest with
        | ':' :: rest =>
          match value? bound rest with
          | none => none
          | some (v, rest) =>
            match skipBlanks rest with
            | ',' :: rest => fields? bound ((k, v) :: read) rest
            | '\x7d' :: rest => some (.obj ((k, v) :: read).reverse, rest)
            | _ => none
        | _ => none
    | _ => none

end

/-- Reads a text that holds one value and nothing else, with the fields of objects as they stand. -/
def read? (text : String) : Option Json :=
  let cs := text.toList
  match value? (2 * cs.length + 2) cs with
  | some (v, rest) => if (skipBlanks rest).isEmpty then some v else none
  | none => none

/-- The value of a text, with the fields of every object in key order. -/
def parse? (text : String) : Option Json := (read? text).map sorted

end ApiManifest.Json
