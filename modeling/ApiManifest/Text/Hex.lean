/-!
Hexadecimal digits: their values, their lower and upper case forms, and numbers written with them.
-/

set_option autoImplicit false

namespace ApiManifest.Text

/-- The value of a hexadecimal digit in either case. -/
def hexValue? (c : Char) : Option Nat :=
  if '0' ≤ c ∧ c ≤ '9' then some (c.toNat - 48)
  else if 'a' ≤ c ∧ c ≤ 'f' then some (c.toNat - 87)
  else if 'A' ≤ c ∧ c ≤ 'F' then some (c.toNat - 55)
  else none

/-- The lower case digit of a value below sixteen. -/
def hexDigit (n : Nat) : Char :=
  if n < 10 then Char.ofNat (48 + n) else Char.ofNat (87 + n)

/-- The upper case digit of a value below sixteen. -/
def hexDigitUpper (n : Nat) : Char :=
  if n < 10 then Char.ofNat (48 + n) else Char.ofNat (55 + n)

/-- The last `width` hexadecimal digits of `n`, most significant first, each written by `digit`. -/
def hexFixed (digit : Nat → Char) : Nat → Nat → List Char
  | 0, _ => []
  | width + 1, n => hexFixed digit width (n / 16) ++ [digit (n % 16)]

/-- The hexadecimal digits of `n` with no leading zero, in lower case. -/
def hexNat (n : Nat) : List Char := Nat.toDigits 16 n

/-- Two lower case digits for each octet. -/
def hexOctets (octets : List UInt8) : String :=
  String.ofList (octets.flatMap fun b => hexFixed hexDigit 2 b.toNat)

/-- Reads pairs of hexadecimal digits as octets. -/
def octetsOfHex? : List Char → Option (List UInt8)
  | [] => some []
  | [_] => none
  | a :: b :: rest => do
    let high ← hexValue? a
    let low ← hexValue? b
    let octets ← octetsOfHex? rest
    return UInt8.ofNat (16 * high + low) :: octets

end ApiManifest.Text
