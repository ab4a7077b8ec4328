/-!
Binary floating-point numbers of 64 bits, kept as their bit pattern. The value of a finite one is
`significand * 2 ^ exponent` with its sign; `ofDecimal` rounds a decimal to the nearest of them, an
exact half to the one with even significand, and past the largest to an infinity.
-/

set_option autoImplicit false

namespace ApiManifest.Number

/-- A floating-point number, given by its 64 bits: sign, eleven of exponent, 52 of fraction. -/
structure Double where
  bits : UInt64
  deriving DecidableEq, Repr

namespace Double

/-- Two to the power 52: what the leading bit of a significand counts, and one unit of the exponent
field among the magnitude bits. -/
def leadingUnit : Nat := 4503599627370496

/-- Two to the power 63: what the bit of the sign counts. -/
def signUnit : Nat := 9223372036854775808

def isNegative (x : Double) : Bool := x.bits.toNat / signUnit == 1

/-- The eleven bits of the exponent field. -/
def exponentField (x : Double) : Nat := x.bits.toNat / leadingUnit % 2048

def fraction (x : Double) : Nat := x.bits.toNat % leadingUnit

def isFinite (x : Double) : Bool := x.exponentField != 2047

def isInfinite (x : Double) : Bool := x.exponentField == 2047 && x.fraction == 0

def isNaN (x : Double) : Bool := x.exponentField == 2047 && x.fraction != 0

/-- The whole number that is scaled by a power of two to give the magnitude. -/
def significand (x : Double) : Nat :=
  if x.exponentField = 0 then x.fraction else leadingUnit + x.fraction

/-- The power of two that scales the significand. -/
def exponent (x : Double) : Int :=
  if x.exponentField = 0 then -1074 else (x.exponentField : Int) - 1075

/-- The number with the given sign and magnitude bits. -/
def ofMagnitude (negative : Bool) (magnitude : Nat) : Double :=
  ⟨UInt64.ofNat ((if negative then signUnit else 0) + magnitude)⟩

def infinity (negative : Bool) : Double := ofMagnitude negative (2047 * leadingUnit)

def nan : Double := ofMagnitude false (2047 * leadingUnit + leadingUnit / 2)

/-- Numbers are told apart by value: the two zeros are one, and NaN equals itself. -/
def same (x y : Double) : Bool :=
  x == y || (x.isNaN && y.isNaN) || (x.bits.toNat % signUnit == 0 && y.bits.toNat % signUnit == 0)

end Double

/-- `num / den` to the nearest whole number, an exact half going to the even neighbour. -/
def roundHalfEven (num den : Nat) : Nat :=
  let low := num / den
  let twice := 2 * (num % den)
  if twice < den then low
  else if den < twice then low + 1
  else low + low % 2

/-- Ten to a power, as a numerator and a denominator. -/
def tenPower (e : Int) : Nat × Nat :=
  if 0 ≤ e then (Nat.pow 10 e.toNat, 1) else (1, Nat.pow 10 (-e).toNat)

/-- Two to a power, as a numerator and a denominator. -/
def twoPower (e : Int) : Nat × Nat :=
  if 0 ≤ e then (Nat.pow 2 e.toNat, 1) else (1, Nat.pow 2 (-e).toNat)

/-- How many decimal digits `n` has, zero counting as one digit. -/
def digitCount (n : Nat) : Nat := (Nat.toDigits 10 n).length

/-- The magnitude bits of the double nearest to the positive quotient `num / den`. The exponent is
the one that leaves 53 bits before rounding, or the least there is. -/
def nearestMagnitude (num den : Nat) : Nat :=
  let b : Int := (Nat.log2 num : Int) - (Nat.log2 den : Int)
  let (bn, bd) := twoPower b
  let q : Int := if num * bd < den * bn then b - 53 else b - 52
  let q : Int := max q (-1074)
  let (qn, qd) := twoPower q
  (q + 1074).toNat * Double.leadingUnit + roundHalfEven (num * qd) (den * qn)

/-- The double nearest to `digits * 10 ^ e`. Powers beyond the range of doubles are settled before
they are computed. -/
def Double.ofDecimal (negative : Bool) (digits : Nat) (e : Int) : Double :=
  if digits = 0 then .ofMagnitude negative 0
  else
    let top : Int := (digitCount digits : Int) + e
    if 310 < top then .infinity negative
    else if top < -330 then .ofMagnitude negative 0
    else
      let (tn, td) := tenPower e
      let magnitude := nearestMagnitude (digits * tn) td
      if 2047 * leadingUnit ≤ magnitude then .infinity negative
      else .ofMagnitude negative magnitude

end ApiManifest.Number
