import ApiManifest.Number.Shortest

/-!
How numbers are spelt. A `FloatLayout` says which decimal exponents are written positionally and
how a written exponent looks; two layouts are used, one in JSON text and one in the text of a
mapping key. `Numeral` is the reverse: a decimal as it is spelt, with sign, fraction and exponent.
-/

set_option autoImplicit false

namespace ApiManifest.Number

/-- The decisions of a notation for doubles that their digits leave open. -/
structure FloatLayout where
  /-- The least decimal exponent that is written positionally. -/
  least : Int
  /-- The greatest decimal exponent that is written positionally. -/
  greatest : Int
  /-- What stands before the digits of an exponent that is not negative. -/
  exponentSign : String
  /-- The text of positive infinity. -/
  infinity : String
  /-- The text of NaN. -/
  nan : String

/-- Doubles in JSON text: positional from 10^-5 up to below 10^16, and a plus sign before a positive
exponent. Infinities and NaN have no place in JSON. -/
def jsonLayout : FloatLayout := ⟨-5, 15, "+", "null", "null"⟩

/-- Doubles as the text of a mapping key: as in JSON text, without the plus sign. -/
def keyLayout : FloatLayout := ⟨-5, 15, "", ".inf", ".nan"⟩

/-- The digits of a decimal whose leading digit has the exponent `e`, with a point. -/
def positional (ds : List Char) (e : Int) : List Char :=
  if e < 0 then
    '0' :: '.' :: (List.replicate (-e - 1).toNat '0' ++ ds)
  else
    let whole := e.toNat + 1
    if ds.length ≤ whole then
      ds ++ List.replicate (whole - ds.length) '0' ++ ['.', '0']
    else
      ds.take whole ++ '.' :: ds.drop whole

/-- The digits of a decimal whose leading digit has the exponent `e`, with that exponent written. -/
def scientific (layout : FloatLayout) (ds : List Char) (e : Int) : List Char :=
  let fraction := if ds.length ≤ 1 then [] else '.' :: ds.drop 1
  let power := if e < 0 then '-' :: Nat.toDigits 10 (-e).toNat
    else layout.exponentSign.toList ++ Nat.toDigits 10 e.toNat
  ds.take 1 ++ fraction ++ 'e' :: power

/-- The text of a double under a layout. -/
def FloatLayout.text (layout : FloatLayout) (x : Double) : String :=
  let sign := if x.isNegative then ['-'] else []
  if x.isNaN then layout.nan
  else if x.isInfinite then String.ofList (sign ++ layout.infinity.toList)
  else if x.significand = 0 then String.ofList (sign ++ ['0', '.', '0'])
  else
    let decimal := x.shortest
    let ds := Nat.toDigits 10 decimal.digits
    let e := decimal.exponent + (ds.length : Int) - 1
    let body := if layout.least ≤ e ∧ e ≤ layout.greatest then positional ds e
      else scientific layout ds e
    String.ofList (sign ++ body)

/-- The text of a whole number. -/
def integerText (n : Int) : String :=
  match n with
  | .ofNat n => String.ofList (Nat.toDigits 10 n)
  | .negSucc n => String.ofList ('-' :: Nat.toDigits 10 (n + 1))

/-- The value of decimal digits, most significant first. -/
def natOfDigits (ds : List Char) : Nat := ds.foldl (fun n c => 10 * n + (c.toNat - 48)) 0

/-- A decimal as it is spelt: the digits before and after a point and the exponent. -/
structure Numeral where
  negative : Bool
  whole : List Char
  fraction : List Char
  exponent : Int

namespace Numeral

/-- The digits at the head of a text, and what follows them. -/
def splitDigits (cs : List Char) : List Char × List Char := cs.span Char.isDigit

/-- Reads an exponent after its mark: an optional sign and digits to the end of the text. -/
def exponent? (cs : List Char) : Option Int :=
  let (negative, cs) := match cs with
    | '-' :: cs => (true, cs)
    | '+' :: cs => (false, cs)
    | cs => (false, cs)
  let (ds, rest) := splitDigits cs
  if ds.isEmpty || !rest.isEmpty then none
  else some (if negative then -(natOfDigits ds : Int) else natOfDigits ds)

/-- Reads an unsigned numeral that fills the text: digits with at most one point among or beside
them and an optional exponent. -/
def unsigned? (negative : Bool) (cs : List Char) : Option Numeral := do
  let (whole, rest) := splitDigits cs
  let (fraction, rest) := match rest with
    | '.' :: rest => splitDigits rest
    | rest => ([], rest)
  if whole.isEmpty && fraction.isEmpty then none
  match rest with
  | [] => some ⟨negative, whole, fraction, 0⟩
  | c :: rest =>
    if c = 'e' ∨ c = 'E' then (exponent? rest).map fun e => ⟨negative, whole, fraction, e⟩
    else none

/-- Reads a numeral with an optional sign that fills the text. -/
def ofChars? (cs : List Char) : Option Numeral :=
  match cs with
  | '-' :: cs => unsigned? true cs
  | '+' :: cs => unsigned? false cs
  | cs => unsigned? false cs

/-- The double nearest to the numeral. -/
def toDouble (n : Numeral) : Double :=
  .ofDecimal n.negative (natOfDigits (n.whole ++ n.fraction)) (n.exponent - n.fraction.length)

end Numeral

end ApiManifest.Number
