import ApiManifest.Number.Shortest
import Mathlib.Algebra.Order.Field.Power
import Mathlib.Data.Nat.Cast.Order.Field
import Mathlib.Data.Nat.Digits.Lemmas
import Mathlib.Data.Rat.Lemmas
import Mathlib.Tactic.FieldSimp
import Mathlib.Tactic.Linarith
import Mathlib.Tactic.NormNum
import Mathlib.Tactic.Positivity
import Mathlib.Tactic.Ring

/-!
Decimals that read back as a double. The interval of the numbers that round to a double is wider
than the grid of seventeen digits, so that the search for the fewest digits finds a decimal in it
(`rounds_shortest`). The intervals of two doubles have no number in common (`Rounds.unique`), and so
the decimal tells the double.
-/

set_option autoImplicit false
set_option relaxedAutoImplicit false

namespace ApiManifest.Number

/-- The value of a decimal. -/
def Decimal.value (x : Decimal) : ℚ := x.digits * (10 : ℚ) ^ x.exponent

/-- How far below `m * 2 ^ q` numbers round to it, counted in `2 ^ q`. -/
def marginBelow (m : Nat) (q : Int) : ℚ :=
  if m = Double.leadingUnit ∧ -1074 < q then 1 / 4 else 1 / 2

/-- The least number that may round to `m * 2 ^ q`. -/
def lowEnd (m : Nat) (q : Int) : ℚ := (m - marginBelow m q) * (2 : ℚ) ^ q

/-- The greatest number that may round to `m * 2 ^ q`. -/
def highEnd (m : Nat) (q : Int) : ℚ := (m + 1 / 2) * (2 : ℚ) ^ q

/-- Holds of the numbers that round to `m * 2 ^ q`; the ends are among them when `m` is even. -/
structure Rounds (m : Nat) (q : Int) (r : ℚ) : Prop where
  low : lowEnd m q ≤ r
  high : r ≤ highEnd m q
  odd : m % 2 ≠ 0 → lowEnd m q < r ∧ r < highEnd m q

/-- Holds of the significand and the exponent of a double: 53 bits, and fewer only at the least
exponent. -/
structure IsCanonical (m : Nat) (q : Int) : Prop where
  bits : m < 2 * Double.leadingUnit
  least : -1074 ≤ q
  leading : -1074 < q → Double.leadingUnit ≤ m

variable {m m' c : Nat} {q q' k : Int} {r : ℚ}

/-! ### Powers -/

/-- Holds of a power, given by a numerator and a denominator. -/
structure IsPower (b : Nat) (e : Int) (p : Nat × Nat) : Prop where
  num_pos : 0 < p.1
  den_pos : 0 < p.2
  cast : (p.1 : ℚ) = (b : ℚ) ^ e * p.2

theorem isPower_of_pos {b : Nat} (hb : 0 < b) (e : Int) :
    IsPower b e (if 0 ≤ e then (b ^ e.toNat, 1) else (1, b ^ (-e).toNat)) := by
  have hcast : (b : ℚ) ≠ 0 := Nat.cast_ne_zero.mpr hb.ne'
  by_cases he : 0 ≤ e
  · obtain ⟨n, rfl⟩ := Int.eq_ofNat_of_zero_le he
    rw [if_pos he]
    exact ⟨Nat.pow_pos hb, Nat.one_pos, by simp⟩
  · obtain ⟨n, hn⟩ := Int.eq_ofNat_of_zero_le (show 0 ≤ -e by omega)
    obtain rfl : e = -n := by omega
    rw [if_neg he]
    exact ⟨Nat.one_pos, Nat.pow_pos hb, by simp [hcast]⟩

theorem isPower_tenPower (e : Int) : IsPower 10 e (tenPower e) := isPower_of_pos (by decide) e

theorem isPower_twoPower (e : Int) : IsPower 2 e (twoPower e) := isPower_of_pos (by decide) e

theorem cast_tenPower (e : Int) : ((tenPower e).1 : ℚ) = (10 : ℚ) ^ e * (tenPower e).2 := by
  exact_mod_cast (isPower_tenPower e).cast

theorem cast_twoPower (e : Int) : ((twoPower e).1 : ℚ) = (2 : ℚ) ^ e * (twoPower e).2 := by
  exact_mod_cast (isPower_twoPower e).cast

/-! ### The interval -/

theorem den_of_pos (m : Nat) (q : Int) : 0 < (RoundingInterval.of m q).den :=
  (isPower_twoPower (q - 2)).den_pos

theorem quarter_zpow (q : Int) : (2 : ℚ) ^ (q - 2) = 2 ^ q / 4 := by
  rw [zpow_sub₀ two_ne_zero]
  norm_num

theorem cast_value_of (m : Nat) (q : Int) :
    ((RoundingInterval.of m q).value : ℚ) = m * 2 ^ q * (RoundingInterval.of m q).den := by
  simp only [RoundingInterval.of]
  push_cast
  rw [cast_twoPower, quarter_zpow]
  ring

theorem cast_high_of (m : Nat) (q : Int) :
    ((RoundingInterval.of m q).high : ℚ) = highEnd m q * (RoundingInterval.of m q).den := by
  simp only [RoundingInterval.of, highEnd]
  push_cast
  rw [cast_twoPower, quarter_zpow]
  ring

theorem cast_low_of (hm : 0 < m) (q : Int) :
    ((RoundingInterval.of m q).low : ℚ) = lowEnd m q * (RoundingInterval.of m q).den := by
  have hbelow : (if m = Double.leadingUnit ∧ -1074 < q then 1 else 2) ≤ 4 * m := by
    split_ifs <;> omega
  simp only [RoundingInterval.of, lowEnd, marginBelow]
  rw [Nat.cast_mul, Nat.cast_sub hbelow, cast_twoPower, quarter_zpow]
  split_ifs
  · push_cast
    ring
  · push_cast
    ring

/-- The interval holds the decimals that round to the double. -/
theorem holds_iff (hm : 0 < m) (q : Int) (c : Nat) (k : Int) :
    (RoundingInterval.of m q).holds c k = true ↔ Rounds m q (c * (10 : ℚ) ^ k) := by
  have hden : (0 : ℚ) < (RoundingInterval.of m q).den := Nat.cast_pos.mpr (den_of_pos m q)
  have hpow : (0 : ℚ) < (tenPower k).2 := Nat.cast_pos.mpr (isPower_tenPower k).den_pos
  have hscale : 0 < ((RoundingInterval.of m q).den : ℚ) * (tenPower k).2 := mul_pos hden hpow
  have hvalue : ((c * (tenPower k).1 * (RoundingInterval.of m q).den : ℕ) : ℚ) =
      c * 10 ^ k * ((RoundingInterval.of m q).den * (tenPower k).2) := by
    push_cast
    rw [cast_tenPower]
    ring
  have hlow : (((RoundingInterval.of m q).low * (tenPower k).2 : ℕ) : ℚ) =
      lowEnd m q * ((RoundingInterval.of m q).den * (tenPower k).2) := by
    push_cast
    rw [cast_low_of hm, mul_assoc]
  have hhigh : (((RoundingInterval.of m q).high * (tenPower k).2 : ℕ) : ℚ) =
      highEnd m q * ((RoundingInterval.of m q).den * (tenPower k).2) := by
    push_cast
    rw [cast_high_of, mul_assoc]
  have hclosed : (RoundingInterval.of m q).closed = (m % 2 == 0) := rfl
  rw [RoundingInterval.holds]
  simp only
  rw [hclosed]
  by_cases heven : m % 2 = 0
  · rw [heven, beq_self_eq_true, if_pos rfl, Bool.and_eq_true, decide_eq_true_eq,
      decide_eq_true_eq, ← Nat.cast_le (α := ℚ), ← Nat.cast_le (α := ℚ), hvalue, hlow, hhigh,
      mul_le_mul_iff_of_pos_right hscale, mul_le_mul_iff_of_pos_right hscale]
    exact ⟨fun h ↦ ⟨h.1, h.2, fun hodd ↦ absurd heven hodd⟩, fun h ↦ ⟨h.low, h.high⟩⟩
  · rw [beq_false_of_ne heven, if_neg Bool.false_ne_true, Bool.and_eq_true, decide_eq_true_eq,
      decide_eq_true_eq, ← Nat.cast_lt (α := ℚ), ← Nat.cast_lt (α := ℚ), hvalue, hlow, hhigh,
      mul_lt_mul_iff_of_pos_right hscale, mul_lt_mul_iff_of_pos_right hscale]
    exact ⟨fun h ↦ ⟨h.1.le, h.2.le, fun _ ↦ h⟩, fun h ↦ h.odd heven⟩

/-! ### Seventeen digits -/

theorem lt_pow_digitCount (n : Nat) : n < 10 ^ digitCount n :=
  (Nat.length_toDigits_le_iff (by decide) Nat.length_toDigits_pos).mp le_rfl

theorem pow_digitCount_le {n : Nat} (hn : 0 < n) : 10 ^ (digitCount n - 1) ≤ n := by
  by_cases hone : digitCount n - 1 = 0
  · rw [hone, pow_zero]
    exact hn
  · by_contra hlt
    have hle : digitCount n ≤ digitCount n - 1 :=
      (Nat.length_toDigits_le_iff (by decide) (Nat.pos_of_ne_zero hone)).mpr (Nat.lt_of_not_le hlt)
    omega

/-- A quotient is no less than the power of ten of its leading digit. -/
theorem zpow_leadingExponent_le {num den : Nat} (hnum : 0 < num) (hden : 0 < den) :
    (10 : ℚ) ^ leadingExponent num den * den ≤ num := by
  unfold leadingExponent
  by_cases hle : den ≤ num
  · have hpos : 0 < digitCount (num / den) := Nat.length_toDigits_pos
    have hexponent : (digitCount (num / den) : Int) - 1 =
        ((digitCount (num / den) - 1 : ℕ) : Int) := by omega
    have hpow : 10 ^ (digitCount (num / den) - 1) * den ≤ num :=
      (Nat.le_div_iff_mul_le hden).mp (pow_digitCount_le (Nat.div_pos hle hden))
    rw [if_pos hle, hexponent, zpow_natCast]
    exact_mod_cast hpow
  · -- What the quotient lacks to one is counted on the reciprocal.
    have hscale {j : Nat} (hj : den ≤ num * 10 ^ j) : (10 : ℚ) ^ (-(j : Int)) * den ≤ num := by
      have hcast : (den : ℚ) ≤ num * 10 ^ j := by exact_mod_cast hj
      rw [zpow_neg, zpow_natCast, inv_mul_le_iff₀ (by positivity), mul_comm]
      exact hcast
    rw [if_neg hle]
    simp only
    split_ifs with hexact
    · exact hscale hexact
    · have hpos : 0 < digitCount (den / num) := Nat.length_toDigits_pos
      have hlt := lt_pow_digitCount (den / num)
      rw [Nat.div_lt_iff_lt_mul hnum] at hlt
      have hexponent : ((digitCount (den / num) - 1 : ℕ) : Int) + 1 = digitCount (den / num) := by
        omega
      rw [hexponent]
      exact hscale (by rw [Nat.mul_comm]; exact hlt.le)

theorem lowEnd_lt (m : Nat) (q : Int) : lowEnd m q < m * (2 : ℚ) ^ q := by
  have hunit : (0 : ℚ) < 2 ^ q := by positivity
  unfold lowEnd marginBelow
  split_ifs
  · linarith
  · linarith

theorem lt_highEnd (m : Nat) (q : Int) : m * (2 : ℚ) ^ q < highEnd m q := by
  have hunit : (0 : ℚ) < 2 ^ q := by positivity
  unfold highEnd
  linarith

/-- The interval is wider than a grid that is as fine as seventeen digits. -/
theorem lt_width (hm : m < 2 * Double.leadingUnit)
    (hgrid : (10 : ℚ) ^ k * 10 ^ 16 ≤ m * 2 ^ q) :
    (10 : ℚ) ^ k < highEnd m q - lowEnd m q := by
  have hunit : (0 : ℚ) < 2 ^ q := by positivity
  unfold highEnd lowEnd marginBelow
  split_ifs with hleading
  · rw [hleading.1, Double.leadingUnit] at hgrid ⊢
    push_cast at hgrid ⊢
    linarith
  · have hbits : (m : ℚ) * 2 ^ q ≤ 9007199254740992 * 2 ^ q := by
      have hcast : (m : ℚ) ≤ 9007199254740992 := by exact_mod_cast hm.le
      exact mul_le_mul_of_nonneg_right hcast hunit.le
    linarith

/-- Of the two numbers on such a grid that the value stands between, one rounds to it. -/
theorem rounds_or_rounds_succ (hm : m < 2 * Double.leadingUnit)
    (hgrid : (10 : ℚ) ^ k * 10 ^ 16 ≤ m * 2 ^ q) (hfloor : c * (10 : ℚ) ^ k ≤ m * 2 ^ q)
    (hceil : m * (2 : ℚ) ^ q < (c + 1 : ℕ) * 10 ^ k) :
    Rounds m q (c * (10 : ℚ) ^ k) ∨ Rounds m q ((c + 1 : ℕ) * (10 : ℚ) ^ k) := by
  have hwidth := lt_width hm hgrid
  by_cases hinside : lowEnd m q < c * (10 : ℚ) ^ k
  · have hend := hfloor.trans_lt (lt_highEnd m q)
    exact .inl ⟨hinside.le, hend.le, fun _ ↦ ⟨hinside, hend⟩⟩
  · have hstart := (lowEnd_lt m q).trans hceil
    have hend : (c + 1 : ℕ) * (10 : ℚ) ^ k < highEnd m q := by
      push_cast
      linarith
    exact .inr ⟨hstart.le, hend.le, fun _ ↦ ⟨hstart, hend⟩⟩

/-- The value stands between two numbers on a grid. -/
theorem floor_le_and_lt (m : Nat) (q k : Int)
    (hc : (RoundingInterval.of m q).value * (tenPower k).2 /
      ((RoundingInterval.of m q).den * (tenPower k).1) = c) :
    c * (10 : ℚ) ^ k ≤ m * 2 ^ q ∧ m * (2 : ℚ) ^ q < (c + 1 : ℕ) * 10 ^ k := by
  have hscale : 0 < (RoundingInterval.of m q).den * (tenPower k).1 :=
    Nat.mul_pos (den_of_pos m q) (isPower_tenPower k).num_pos
  have hden : (0 : ℚ) < (RoundingInterval.of m q).den * (tenPower k).2 := by
    exact_mod_cast Nat.mul_pos (den_of_pos m q) (isPower_tenPower k).den_pos
  constructor
  · have hle := Nat.div_mul_le_self ((RoundingInterval.of m q).value * (tenPower k).2)
      ((RoundingInterval.of m q).den * (tenPower k).1)
    rw [hc, ← Nat.cast_le (α := ℚ)] at hle
    push_cast at hle
    rw [cast_value_of, cast_tenPower] at hle
    refine le_of_mul_le_mul_right ?_ hden
    linarith
  · have hlt := Nat.lt_div_mul_add hscale (a := (RoundingInterval.of m q).value * (tenPower k).2)
    rw [hc, ← Nat.cast_lt (α := ℚ)] at hlt
    push_cast at hlt ⊢
    rw [cast_value_of, cast_tenPower] at hlt
    refine lt_of_mul_lt_mul_right ?_ hden.le
    linarith

/-- A number on a grid that the value stands next to is found if it rounds to the double. -/
theorem isSome_neighbour?_of_rounds (hpos : 0 < m)
    (hc : (RoundingInterval.of m q).value * (tenPower k).2 /
      ((RoundingInterval.of m q).den * (tenPower k).1) = c)
    (h : Rounds m q (c * (10 : ℚ) ^ k) ∨ Rounds m q ((c + 1 : ℕ) * (10 : ℚ) ^ k)) :
    ((RoundingInterval.of m q).neighbour? k).isSome = true := by
  rw [RoundingInterval.neighbour?]
  simp only
  rw [hc]
  rcases h with hrounds | hrounds
  · rw [(holds_iff hpos q c k).mpr hrounds]
    cases (RoundingInterval.of m q).holds (c + 1) k with
    | true => rfl
    | false => rfl
  · rw [(holds_iff hpos q (c + 1) k).mpr hrounds]
    cases (RoundingInterval.of m q).holds c k with
    | true => rfl
    | false => rfl

/-- On such a grid one of the two neighbours of the value lies in the interval. -/
theorem isSome_neighbour? (hpos : 0 < m) (hm : m < 2 * Double.leadingUnit)
    (hgrid : (10 : ℚ) ^ k * 10 ^ 16 ≤ m * 2 ^ q) :
    ((RoundingInterval.of m q).neighbour? k).isSome = true := by
  obtain ⟨hfloor, hceil⟩ := floor_le_and_lt m q k rfl
  exact isSome_neighbour?_of_rounds hpos rfl (rounds_or_rounds_succ hm hgrid hfloor hceil)

/-- A neighbour that is taken lies in the interval. -/
theorem holds_of_neighbour? {i : RoundingInterval} {d : Decimal} (h : i.neighbour? k = some d) :
    i.holds d.digits d.exponent = true := by
  rw [RoundingInterval.neighbour?] at h
  simp only at h
  generalize i.value * (tenPower k).2 / (i.den * (tenPower k).1) = c at h
  split at h
  · rename_i hlow hhigh
    obtain rfl := Option.some.inj h
    simp only
    split_ifs
    · exact hhigh
    · exact hlow
  · rename_i hlow _
    obtain rfl := Option.some.inj h
    exact hlow
  · rename_i _ hhigh
    obtain rfl := Option.some.inj h
    exact hhigh
  · exact absurd h (Option.some_ne_none d).symm

/-- Dropping zeros at the end of the digits leaves the value. -/
theorem Decimal.value_trim (fuel : Nat) (d : Decimal) : (d.trim fuel).value = d.value := by
  induction fuel generalizing d with
  | zero => rfl
  | succ fuel ih =>
    rw [Decimal.trim]
    split_ifs with hzero
    · have hdigits : (d.digits : ℚ) = (d.digits / 10 : ℕ) * 10 := by
        exact_mod_cast (Nat.div_mul_cancel (Nat.dvd_of_mod_eq_zero hzero.1)).symm
      rw [ih, Decimal.value, Decimal.value, hdigits, zpow_add_one₀ (by norm_num)]
      ring
    · rfl

/-! ### The double of a decimal -/

/-- Zero rounds to zero. -/
theorem rounds_zero (q : Int) : Rounds 0 q 0 := by
  have hlow := (lowEnd_lt 0 q).le
  have hhigh := (lt_highEnd 0 q).le
  rw [Nat.cast_zero, zero_mul] at hlow hhigh
  exact ⟨hlow, hhigh, fun hodd ↦ absurd rfl hodd⟩

theorem marginBelow_le (m : Nat) (q : Int) : marginBelow m q ≤ 1 / 2 := by
  unfold marginBelow
  split_ifs
  · norm_num
  · exact le_rfl

/-- Holds of two doubles such that the interval of the one ends before that of the other starts, or
just there if not both have their ends. -/
structure EndsBefore (m : Nat) (q : Int) (m' : Nat) (q' : Int) : Prop where
  le : highEnd m q ≤ lowEnd m' q'
  lt : m % 2 = 0 → m' % 2 = 0 → highEnd m q < lowEnd m' q'

/-- No number rounds to both of two such doubles. -/
theorem EndsBefore.not_rounds (h : EndsBefore m q m' q') (hr : Rounds m q r) :
    ¬ Rounds m' q' r := by
  intro hr'
  have hle := h.le
  have hhigh := hr.high
  have hlow := hr'.low
  by_cases heven : m % 2 = 0
  · by_cases heven' : m' % 2 = 0
    · have hlt := h.lt heven heven'
      linarith
    · have hlt := (hr'.odd heven').1
      linarith
  · have hlt := (hr.odd heven).2
    linarith

theorem endsBefore_of_lt (h : m < m') (q : Int) : EndsBefore m q m' q := by
  have hunit : (0 : ℚ) < 2 ^ q := by positivity
  have hmargin := marginBelow_le m' q
  refine ⟨?_, fun heven heven' ↦ ?_⟩
  · have hnext : (m : ℚ) + 1 ≤ m' := by exact_mod_cast h
    exact mul_le_mul_of_nonneg_right (by linarith) hunit.le
  · -- Between two even significands there is one more.
    have hnext : (m : ℚ) + 2 ≤ m' := by exact_mod_cast (show m + 2 ≤ m' by omega)
    exact mul_lt_mul_of_pos_right (by linarith) hunit

theorem endsBefore_of_exponent_lt (hm : IsCanonical m q) (hm' : IsCanonical m' q') (h : q < q') :
    EndsBefore m q m' q' := by
  have hunit : (0 : ℚ) < 2 ^ q := by positivity
  have hleast : -1074 < q' := by
    have := hm.least
    omega
  have hdouble : (2 : ℚ) ^ q * 2 ≤ 2 ^ q' := by
    rw [← zpow_add_one₀ two_ne_zero]
    exact zpow_le_zpow_right₀ one_le_two h
  have hstart : (9007199254740991 + 1 / 2) * (2 : ℚ) ^ q ≤ lowEnd m' q' := by
    unfold lowEnd marginBelow
    by_cases hleading : m' = Double.leadingUnit
    · rw [if_pos ⟨hleading, hleast⟩, hleading, Double.leadingUnit]
      push_cast
      linarith
    · have hbits : (4503599627370497 : ℚ) ≤ m' := by
        have := hm'.leading hleast
        unfold Double.leadingUnit at hleading this
        exact_mod_cast (show 4503599627370497 ≤ m' by omega)
      have hscaled : (4503599627370497 - 1 / 2) * ((2 : ℚ) ^ q * 2) ≤ (m' - 1 / 2) * 2 ^ q' :=
        mul_le_mul (by linarith) hdouble (by positivity) (by linarith)
      rw [if_neg fun hboth ↦ hleading hboth.1]
      linarith
  have hbits := hm.bits
  unfold Double.leadingUnit at hbits
  refine ⟨?_, fun heven _ ↦ ?_⟩
  · have hcast : (m : ℚ) ≤ 9007199254740991 := by
      exact_mod_cast (show m ≤ 9007199254740991 by omega)
    have hend : highEnd m q ≤ (9007199254740991 + 1 / 2) * (2 : ℚ) ^ q :=
      mul_le_mul_of_nonneg_right (by linarith) hunit.le
    exact hend.trans hstart
  · have hcast : (m : ℚ) ≤ 9007199254740990 := by
      exact_mod_cast (show m ≤ 9007199254740990 by omega)
    have hend : highEnd m q < (9007199254740991 + 1 / 2) * (2 : ℚ) ^ q :=
      mul_lt_mul_of_pos_right (by linarith) hunit
    exact hend.trans_le hstart

/-- A number rounds to one double at most. -/
theorem Rounds.unique (h : Rounds m q r) (h' : Rounds m' q' r) (hm : IsCanonical m q)
    (hm' : IsCanonical m' q') : m = m' ∧ q = q' := by
  rcases lt_trichotomy q q' with hlt | rfl | hlt
  · exact absurd h' ((endsBefore_of_exponent_lt hm hm' hlt).not_rounds h)
  · rcases lt_trichotomy m m' with hlt | heq | hlt
    · exact absurd h' ((endsBefore_of_lt hlt q).not_rounds h)
    · exact ⟨heq, rfl⟩
    · exact absurd h ((endsBefore_of_lt hlt q).not_rounds h')
  · exact absurd h ((endsBefore_of_exponent_lt hm' hm hlt).not_rounds h')

namespace Double

variable {x y : Double}

theorem fraction_lt (x : Double) : x.fraction < leadingUnit := Nat.mod_lt _ (by decide)

theorem isCanonical (x : Double) : IsCanonical x.significand x.exponent := by
  have hfraction := x.fraction_lt
  unfold significand exponent
  split_ifs with hfield
  · exact ⟨by omega, le_rfl, fun h ↦ absurd h (lt_irrefl _)⟩
  · exact ⟨by omega, by omega, fun _ ↦ Nat.le_add_right _ _⟩

/-- A double is its sign, its significand and its exponent. -/
theorem eq_of_parts (hsign : x.isNegative = y.isNegative) (hm : x.significand = y.significand)
    (hq : x.exponent = y.exponent) : x = y := by
  have hfraction := x.fraction_lt
  have hfraction' := y.fraction_lt
  have hfields : x.exponentField = y.exponentField ∧ x.fraction = y.fraction := by
    unfold significand at hm
    unfold exponent at hq
    split_ifs at hm hq
    all_goals omega
  have hsign' : (x.bits.toNat / signUnit == 1) = (y.bits.toNat / signUnit == 1) := hsign
  rw [Bool.eq_iff_iff, beq_iff_eq, beq_iff_eq] at hsign'
  have hbound := x.bits.toNat_lt
  have hbound' := y.bits.toNat_lt
  unfold exponentField fraction at hfields
  have hbits : x.bits.toNat = y.bits.toNat := by
    unfold signUnit leadingUnit at *
    omega
  cases x
  cases y
  exact congrArg mk (UInt64.toNat_inj.mp hbits)

/-- The shortest decimal of a finite double other than zero rounds to it. -/
theorem rounds_shortest (hx : x.significand ≠ 0) :
    Rounds x.significand x.exponent x.shortest.value := by
  have hpos := Nat.pos_of_ne_zero hx
  have hvalue : 0 < (RoundingInterval.of x.significand x.exponent).value :=
    Nat.mul_pos (Nat.mul_pos (by decide) hpos) (isPower_twoPower _).num_pos
  have hden := den_of_pos x.significand x.exponent
  unfold shortest
  simp only
  generalize hi : RoundingInterval.of x.significand x.exponent = i at hvalue hden ⊢
  have hgrid : (10 : ℚ) ^ (leadingExponent i.value i.den - (16 : ℕ)) * 10 ^ 16 ≤
      x.significand * 2 ^ x.exponent := by
    have hleading := zpow_leadingExponent_le hvalue hden
    rw [← hi] at hleading ⊢
    rw [cast_value_of] at hleading
    have hle := le_of_mul_le_mul_right hleading (by rw [hi]; exact_mod_cast hden)
    rw [zpow_sub₀ (by norm_num), zpow_natCast, div_mul_cancel₀ _ (by positivity)]
    exact hle
  have hlast := isSome_neighbour? hpos x.isCanonical.bits hgrid
  rw [hi] at hlast
  have hfound : ((List.range 17).findSome? fun n : Nat ↦
      i.neighbour? (leadingExponent i.value i.den - n)).isSome = true :=
    List.findSome?_isSome_iff.mpr ⟨16, List.mem_range.mpr (by decide), hlast⟩
  obtain ⟨d, hd⟩ := Option.isSome_iff_exists.mp hfound
  obtain ⟨n, -, hn⟩ := List.exists_of_findSome?_eq_some hd
  have hholds := holds_of_neighbour? hn
  rw [← hi, holds_iff hpos] at hholds
  rw [hd, Option.getD_some, Decimal.value_trim]
  exact hholds

end Double

end ApiManifest.Number
