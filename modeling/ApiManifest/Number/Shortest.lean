import ApiManifest.Number.Double

/-!
The fewest decimal digits that read back as a given double. The reals that round to the double form
an interval around it, with its ends when the significand is even. For one, two and up to seventeen
digits the two neighbours of the value on the decimal grid of that many digits are tried; the first
grid with a neighbour in the interval gives the digits, the nearer neighbour winning and of two
equally near ones the even.
-/

set_option autoImplicit false

namespace ApiManifest.Number

/-- A decimal `digits * 10 ^ exponent`. -/
structure Decimal where
  digits : Nat
  exponent : Int
  deriving DecidableEq, Repr

/-- The interval of reals that round to a double, over a common denominator: its lower end, the
value, its upper end, and whether the ends belong to it. -/
structure RoundingInterval where
  low : Nat
  value : Nat
  high : Nat
  den : Nat
  closed : Bool

/-- The rounding interval of `m * 2 ^ q`. Below a power of two the grid of doubles is twice as fine,
so the lower end is then only half as far away. -/
def RoundingInterval.of (m : Nat) (q : Int) : RoundingInterval :=
  let (n, d) := twoPower (q - 2)
  let below := if m = Double.leadingUnit ∧ -1074 < q then 1 else 2
  { low := (4 * m - below) * n, value := 4 * m * n, high := (4 * m + 2) * n, den := d,
    closed := m % 2 == 0 }

/-- Whether `c * 10 ^ k` lies in the interval. -/
def RoundingInterval.holds (i : RoundingInterval) (c : Nat) (k : Int) : Bool :=
  let (n, d) := tenPower k
  let x := c * n * i.den
  if i.closed then i.low * d ≤ x && x ≤ i.high * d else i.low * d < x && x < i.high * d

/-- The power of ten of the leading digit of the positive quotient `num / den`. -/
def leadingExponent (num den : Nat) : Int :=
  if den ≤ num then (digitCount (num / den) : Int) - 1
  else
    let j := digitCount (den / num) - 1
    if den ≤ num * Nat.pow 10 j then -(j : Int) else -((j : Int) + 1)

/-- The neighbour of the value on the grid `10 ^ k` that the interval holds, if it holds one. -/
def RoundingInterval.neighbour? (i : RoundingInterval) (k : Int) : Option Decimal :=
  let (n, d) := tenPower k
  let c := i.value * d / (i.den * n)
  let rest := 2 * (i.value * d % (i.den * n))
  let up : Bool := i.den * n < rest || (rest == i.den * n && c % 2 == 1)
  match i.holds c k, i.holds (c + 1) k with
  | true, true => some ⟨if up then c + 1 else c, k⟩
  | true, false => some ⟨c, k⟩
  | false, true => some ⟨c + 1, k⟩
  | false, false => none

/-- Drops zeros at the end of the digits, at most `fuel` of them. -/
def Decimal.trim : Nat → Decimal → Decimal
  | 0, x => x
  | fuel + 1, x =>
    if x.digits % 10 = 0 ∧ x.digits ≠ 0 then trim fuel ⟨x.digits / 10, x.exponent + 1⟩ else x

/-- The shortest decimal that reads back as a finite double other than zero, without its sign. -/
def Double.shortest (x : Double) : Decimal :=
  let i := RoundingInterval.of x.significand x.exponent
  let e := leadingExponent i.value i.den
  let found := (List.range 17).findSome? fun n : Nat => i.neighbour? (e - n)
  (found.getD ⟨0, 0⟩).trim 20

end ApiManifest.Number
