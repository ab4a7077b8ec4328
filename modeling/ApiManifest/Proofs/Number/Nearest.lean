import ApiManifest.Proofs.Number.Spelling

/-!
A decimal is read as the double that it rounds to. The quotient is scaled by the power of two that
leaves 53 bits and rounded to a whole number; a carry goes on into the exponent
(`exists_canonical_nearestMagnitude`). So whatever rounds to a finite double is read as that double
(`Numeral.toDouble_of_rounds`), the text of it in particular.
-/

set_option autoImplicit false
set_option relaxedAutoImplicit false

namespace ApiManifest.Number

/-- Holds of the whole number nearest to a number, which is even if there are two. -/
structure IsNearest (c : Nat) (r : ℚ) : Prop where
  low : (c : ℚ) - 1 / 2 ≤ r
  high : r ≤ c + 1 / 2
  odd : c % 2 ≠ 0 → (c : ℚ) - 1 / 2 < r ∧ r < c + 1 / 2

variable {num den m c : Nat} {q : Int} {r : ℚ}

/-! ### Rounding a quotient -/

/-- The nearest whole number to a quotient, told by whole numbers. -/
theorem isNearest_div (hden : 0 < den) (hlow : 2 * (c * den) ≤ 2 * num + den)
    (hhigh : 2 * num ≤ 2 * (c * den) + den)
    (hodd : c % 2 ≠ 0 → 2 * (c * den) < 2 * num + den ∧ 2 * num < 2 * (c * den) + den) :
    IsNearest c (num / den) := by
  have hpos : (0 : ℚ) < den := Nat.cast_pos.mpr hden
  refine ⟨?_, ?_, fun h ↦ ?_⟩
  · rw [le_div_iff₀ hpos]
    have hcast : (2 : ℚ) * (c * den) ≤ 2 * num + den := by exact_mod_cast hlow
    linarith
  · rw [div_le_iff₀ hpos]
    have hcast : (2 : ℚ) * num ≤ 2 * (c * den) + den := by exact_mod_cast hhigh
    linarith
  · obtain ⟨hlow, hhigh⟩ := hodd h
    have hlow' : (2 : ℚ) * (c * den) < 2 * num + den := by exact_mod_cast hlow
    have hhigh' : (2 : ℚ) * num < 2 * (c * den) + den := by exact_mod_cast hhigh
    rw [lt_div_iff₀ hpos, div_lt_iff₀ hpos]
    exact ⟨by linarith, by linarith⟩

theorem isNearest_roundHalfEven (num : Nat) (hden : 0 < den) :
    IsNearest (roundHalfEven num den) (num / den) := by
  have hsum : num / den * den + num % den = num := Nat.div_add_mod' num den
  have hrest : num % den < den := Nat.mod_lt num hden
  have hnext : (num / den + 1) * den = num / den * den + den := Nat.succ_mul _ _
  rw [roundHalfEven]
  split_ifs with hbelow habove
  · exact isNearest_div hden (by omega) (by omega) fun _ ↦ ⟨by omega, by omega⟩
  · exact isNearest_div hden (by omega) (by omega) fun _ ↦ ⟨by omega, by omega⟩
  · -- Half way between two numbers the even one is taken.
    rcases Nat.mod_two_eq_zero_or_one (num / den) with heven | hodd
    · rw [heven, Nat.add_zero]
      exact isNearest_div hden (by omega) (by omega) fun h ↦ absurd heven h
    · rw [hodd]
      exact isNearest_div hden (by omega) (by omega) fun h ↦ absurd h (by omega)

/-! ### The exponent -/

theorem zpow_log2_le {n : Nat} (hn : 0 < n) : (2 : ℚ) ^ (n.log2 : Int) ≤ n := by
  rw [zpow_natCast]
  exact_mod_cast Nat.log2_self_le hn.ne'

theorem lt_zpow_log2 (n : Nat) : (n : ℚ) < 2 ^ ((n.log2 : Int) + 1) := by
  have hlt : n < 2 ^ (n.log2 + 1) := Nat.lt_log2_self
  exact_mod_cast hlt

/-- A quotient lies between the powers of two that the lengths of its parts give. -/
theorem zpow_lt_div_and_div_lt (hnum : 0 < num) (hden : 0 < den) :
    (2 : ℚ) ^ ((num.log2 : Int) - den.log2 - 1) < num / den ∧
      (num : ℚ) / den < 2 ^ ((num.log2 : Int) - den.log2 + 1) := by
  have hpos : (0 : ℚ) < den := Nat.cast_pos.mpr hden
  have hlow := zpow_log2_le hnum
  have hhigh := lt_zpow_log2 num
  have hlow' := zpow_log2_le hden
  have hhigh' := lt_zpow_log2 den
  constructor
  · rw [lt_div_iff₀ hpos]
    calc (2 : ℚ) ^ ((num.log2 : Int) - den.log2 - 1) * den
        < 2 ^ ((num.log2 : Int) - den.log2 - 1) * 2 ^ ((den.log2 : Int) + 1) :=
          mul_lt_mul_of_pos_left hhigh' (by positivity)
      _ = 2 ^ (num.log2 : Int) := by
          rw [← zpow_add₀ two_ne_zero]
          congr 1
          ring
      _ ≤ num := hlow
  · rw [div_lt_iff₀ hpos]
    calc (num : ℚ) < 2 ^ ((num.log2 : Int) + 1) := hhigh
      _ = 2 ^ ((num.log2 : Int) - den.log2 + 1) * 2 ^ (den.log2 : Int) := by
          rw [← zpow_add₀ two_ne_zero]
          congr 1
          ring
      _ ≤ 2 ^ ((num.log2 : Int) - den.log2 + 1) * den :=
          mul_le_mul_of_nonneg_left hlow' (by positivity)

/-- The exponent that leaves 53 bits of a quotient. -/
def scale (num den : Nat) : Int :=
  let b : Int := (num.log2 : Int) - den.log2
  let (bn, bd) := twoPower b
  if num * bd < den * bn then b - 53 else b - 52

/-- The exponent that leaves 53 bits of a quotient does. -/
theorem zpow_scale_le_and_lt (hnum : 0 < num) (hden : 0 < den) :
    4503599627370496 * (2 : ℚ) ^ scale num den ≤ num / den ∧
      (num : ℚ) / den < 9007199254740992 * 2 ^ scale num den := by
  obtain ⟨hlow, hhigh⟩ := zpow_lt_div_and_div_lt hnum hden
  have hpos : (0 : ℚ) < den := Nat.cast_pos.mpr hden
  have hpower (b : Int) :
      num * (twoPower b).2 < den * (twoPower b).1 ↔ (num : ℚ) / den < 2 ^ b := by
    have hscale : (0 : ℚ) < (twoPower b).2 := Nat.cast_pos.mpr (isPower_twoPower b).den_pos
    rw [div_lt_iff₀ hpos, ← Nat.cast_lt (α := ℚ)]
    push_cast
    rw [cast_twoPower, ← mul_assoc, mul_lt_mul_iff_of_pos_right hscale, mul_comm (den : ℚ)]
  have hbits (e : Int) : 4503599627370496 * (2 : ℚ) ^ e = 2 ^ (52 + e) ∧
      9007199254740992 * (2 : ℚ) ^ e = 2 ^ (53 + e) := by
    rw [zpow_add₀ two_ne_zero, zpow_add₀ two_ne_zero]
    norm_num
  rw [(hbits _).1, (hbits _).2]
  generalize hb : (num.log2 : Int) - den.log2 = b at hlow hhigh
  have hscale : scale num den = if (num : ℚ) / den < 2 ^ b then b - 53 else b - 52 := by
    rw [scale, hb]
    exact if_congr (hpower b) rfl rfl
  rw [hscale]
  split_ifs with hbelow
  · rw [show 52 + (b - 53) = b - 1 by ring, show 53 + (b - 53) = b by ring]
    exact ⟨hlow.le, hbelow⟩
  · rw [show 52 + (b - 52) = b by ring, show 53 + (b - 52) = b + 1 by ring]
    exact ⟨not_lt.mp hbelow, hhigh⟩

/-! ### The significand -/

/-- The magnitude bits are the scaled exponent and the rounded quotient. -/
theorem nearestMagnitude_eq (num den : Nat) :
    nearestMagnitude num den = (max (scale num den) (-1074) + 1074).toNat * Double.leadingUnit +
      roundHalfEven (num * (twoPower (max (scale num den) (-1074))).2)
        (den * (twoPower (max (scale num den) (-1074))).1) := rfl

/-- A number rounds to the significand that its scaled form is nearest to. -/
theorem rounds_of_isNearest (h : IsNearest m r)
    (hleading : -1074 < q → (Double.leadingUnit : ℚ) ≤ r) : Rounds m q (r * 2 ^ q) := by
  have hunit : (0 : ℚ) < 2 ^ q := by positivity
  refine ⟨mul_le_mul_of_nonneg_right ?_ hunit.le, mul_le_mul_of_nonneg_right h.high hunit.le,
    fun hodd ↦ ⟨mul_lt_mul_of_pos_right ?_ hunit, mul_lt_mul_of_pos_right (h.odd hodd).2 hunit⟩⟩
  · unfold marginBelow
    split_ifs with hleast
    · rw [hleast.1]
      linarith [hleading hleast.2]
    · exact h.low
  · unfold marginBelow
    split_ifs with hleast
    · exact absurd (hleast.1 ▸ hodd) (by decide)
    · exact (h.odd hodd).1

/-- A number that is carried over to the next power of two rounds to it. -/
theorem rounds_of_carry (hleast : -1074 ≤ q) (hlow : 9007199254740992 - 1 / 2 ≤ r)
    (hhigh : r < 9007199254740992) : Rounds Double.leadingUnit (q + 1) (r * 2 ^ q) := by
  have hunit : (0 : ℚ) < 2 ^ q := by positivity
  refine ⟨?_, ?_, fun hodd ↦ absurd rfl hodd⟩
  · rw [lowEnd, marginBelow, if_pos ⟨rfl, by omega⟩, zpow_add_one₀ two_ne_zero, mul_comm _ (2 : ℚ),
      ← mul_assoc, Double.leadingUnit]
    exact mul_le_mul_of_nonneg_right (by push_cast; linarith) hunit.le
  · rw [highEnd, zpow_add_one₀ two_ne_zero, mul_comm _ (2 : ℚ), ← mul_assoc, Double.leadingUnit]
    exact mul_le_mul_of_nonneg_right (by push_cast; linarith) hunit.le

/-- The whole number nearest to a number of 53 bits gives the bits of a double that it rounds to. -/
theorem exists_canonical_of_isNearest (hleast : -1074 ≤ q) (h : IsNearest c r)
    (hbits : r < 9007199254740992) (hleading : -1074 < q → (4503599627370496 : ℚ) ≤ r) :
    ∃ m q', IsCanonical m q' ∧ Rounds m q' (r * 2 ^ q) ∧
      (q + 1074).toNat * Double.leadingUnit + c = (q' + 1074).toNat * Double.leadingUnit + m := by
  have hc : c < 9007199254740993 := by
    have hcast : (c : ℚ) < 9007199254740993 := by linarith [h.low]
    exact_mod_cast hcast
  have hc' : -1074 < q → 4503599627370496 ≤ c := by
    intro hlt
    have hcast : (4503599627370495 : ℚ) < c := by linarith [h.high, hleading hlt]
    have hcast' : 4503599627370495 < c := by exact_mod_cast hcast
    omega
  by_cases hcarry : c = 9007199254740992
  · refine ⟨Double.leadingUnit, q + 1, ⟨by decide, by omega, fun _ ↦ le_rfl⟩, ?_, ?_⟩
    · refine rounds_of_carry hleast ?_ hbits
      rw [hcarry] at h
      exact_mod_cast h.low
    · unfold Double.leadingUnit
      omega
  · refine ⟨c, q, ⟨?_, hleast, hc'⟩, rounds_of_isNearest h ?_, rfl⟩
    · unfold Double.leadingUnit
      omega
    · exact_mod_cast hleading

/-- The magnitude bits of a quotient are those of a double that it rounds to. -/
theorem exists_canonical_nearestMagnitude (hnum : 0 < num) (hden : 0 < den) :
    ∃ m q, IsCanonical m q ∧ Rounds m q (num / den) ∧
      nearestMagnitude num den = (q + 1074).toNat * Double.leadingUnit + m := by
  obtain ⟨hlow, hhigh⟩ := zpow_scale_le_and_lt hnum hden
  rw [nearestMagnitude_eq]
  generalize hq : max (scale num den) (-1074) = q
  have hunit : (0 : ℚ) < 2 ^ q := by positivity
  have hdiv : ((num * (twoPower q).2 : ℕ) : ℚ) / (den * (twoPower q).1 : ℕ) =
      num / den / 2 ^ q := by
    have hpos : ((twoPower q).2 : ℚ) ≠ 0 := Nat.cast_ne_zero.mpr (isPower_twoPower q).den_pos.ne'
    push_cast
    rw [cast_twoPower, ← mul_assoc, mul_div_mul_right _ _ hpos, div_div]
  have hnearest := isNearest_roundHalfEven (num * (twoPower q).2)
    (Nat.mul_pos hden (isPower_twoPower q).num_pos)
  rw [hdiv] at hnearest
  have hbits : (num : ℚ) / den / 2 ^ q < 9007199254740992 := by
    rw [div_lt_iff₀ hunit]
    refine hhigh.trans_le (mul_le_mul_of_nonneg_left ?_ (by norm_num))
    exact zpow_le_zpow_right₀ one_le_two (by omega)
  have hleading : -1074 < q → (4503599627370496 : ℚ) ≤ num / den / 2 ^ q := by
    intro hlt
    rw [le_div_iff₀ hunit, ← hq, max_eq_left (by omega)]
    exact hlow
  rw [← div_mul_cancel₀ ((num : ℚ) / den) hunit.ne']
  exact exists_canonical_of_isNearest (by omega) hnearest hbits hleading

/-! ### The bits of a double -/

theorem isCanonical_zero : IsCanonical 0 (-1074) :=
  ⟨by decide, le_rfl, fun h ↦ absurd h (lt_irrefl _)⟩

namespace Double

variable {negative : Bool} {x : Double}

theorem toNat_ofMagnitude (negative : Bool) {magnitude : Nat} (h : magnitude < signUnit) :
    (ofMagnitude negative magnitude).bits.toNat =
      (if negative then signUnit else 0) + magnitude := by
  rw [ofMagnitude, UInt64.toNat_ofNat']
  refine Nat.mod_eq_of_lt ?_
  unfold signUnit at h ⊢
  split_ifs <;> omega

/-- A significand and an exponent are told by the magnitude bits that they give. -/
theorem parts_ofMagnitude (hm : IsCanonical m q)
    (hbound : (q + 1074).toNat * leadingUnit + m < signUnit) :
    (ofMagnitude negative ((q + 1074).toNat * leadingUnit + m)).isNegative = negative ∧
      (ofMagnitude negative ((q + 1074).toNat * leadingUnit + m)).significand = m ∧
      (ofMagnitude negative ((q + 1074).toNat * leadingUnit + m)).exponent = q := by
  have hbits := toNat_ofMagnitude negative hbound
  obtain ⟨hsmall, hleast, hleading⟩ := hm
  generalize ht : (q + 1074).toNat = t at hbits hbound ⊢
  obtain rfl : q = t - 1074 := by omega
  -- A significand of fewer than 53 bits stands at the least exponent.
  have hfew : m < leadingUnit → t = 0 := fun hlt ↦ by
    by_contra ht
    exact absurd (hleading (by omega)) (Nat.not_le.mpr hlt)
  unfold isNegative significand exponent exponentField fraction
  rw [hbits]
  unfold signUnit leadingUnit at *
  cases negative with
  | true =>
    simp only [if_true, beq_iff_eq]
    refine ⟨by omega, ?_, ?_⟩ <;> split_ifs <;> omega
  | false =>
    simp only [Bool.false_eq_true, if_false, beq_eq_false_iff_ne]
    refine ⟨by omega, ?_, ?_⟩ <;> split_ifs <;> omega

theorem isFinite_iff : x.isFinite = true ↔ x.exponent < 972 := by
  have hfield : x.exponentField < 2048 := Nat.mod_lt _ (by decide)
  rw [isFinite, bne_iff_ne, exponent]
  split_ifs <;> omega

/-- What rounds to a finite double is less than the numbers that are infinite for sure. -/
theorem lt_of_rounds (hm : IsCanonical m q) (hq : q < 972) (h : Rounds m q r) :
    r < 10 ^ (309 : Int) := by
  have hbits : (m : ℚ) + 1 / 2 ≤ 2 ^ (53 : Int) := by
    have hcast : (m : ℚ) + 1 ≤ 9007199254740992 := by
      exact_mod_cast hm.bits
    norm_num
    linarith
  have hpower : (2 : ℚ) ^ q ≤ 2 ^ (971 : Int) := zpow_le_zpow_right₀ one_le_two (by omega)
  have hgreat : (2 : ℕ) ^ 1024 < 10 ^ 309 := by decide +kernel
  calc r ≤ ((m : ℚ) + 1 / 2) * 2 ^ q := h.high
    _ ≤ 2 ^ (53 : Int) * 2 ^ (971 : Int) :=
        mul_le_mul hbits hpower (by positivity) (by positivity)
    _ = 2 ^ (1024 : Int) := by
        rw [← zpow_add₀ two_ne_zero]
        rfl
    _ < 10 ^ (309 : Int) := by exact_mod_cast hgreat

/-- Numbers that are zero for sure round to it. -/
theorem rounds_zero_of_lt (hpos : 0 ≤ r) (h : r < 10 ^ (-330 : Int)) : Rounds 0 (-1074) r := by
  have hunit : (0 : ℚ) < 2 ^ (-1074 : Int) := by positivity
  have hsmall : (10 : ℚ) ^ (-330 : Int) ≤ 1 / 2 * 2 ^ (-1074 : Int) := by
    have hle : (2 : ℕ) ^ 1075 ≤ 10 ^ 330 := by decide +kernel
    have hcast : (2 : ℚ) ^ (1075 : ℕ) ≤ 10 ^ (330 : ℕ) := by exact_mod_cast hle
    have hinv := inv_anti₀ (by positivity) hcast
    rw [pow_succ (2 : ℚ), mul_inv] at hinv
    rw [zpow_neg, zpow_neg, one_div, mul_comm]
    exact_mod_cast hinv
  refine ⟨?_, ?_, fun hodd ↦ absurd rfl hodd⟩
  · rw [lowEnd, marginBelow, if_neg (by decide), Nat.cast_zero]
    linarith
  · rw [highEnd, Nat.cast_zero]
    linarith

/-- A decimal is as great as the exponent of its leading digit tells. -/
theorem zpow_le_and_lt_zpow {digits : Nat} (hdigits : 0 < digits) (e : Int) :
    (10 : ℚ) ^ ((digitCount digits : Int) + e - 1) ≤ digits * 10 ^ e ∧
      digits * (10 : ℚ) ^ e < 10 ^ ((digitCount digits : Int) + e) := by
  have hcount : 0 < digitCount digits := Nat.length_toDigits_pos
  have hunit : (0 : ℚ) < 10 ^ e := by positivity
  constructor
  · have hle : ((10 ^ (digitCount digits - 1) : ℕ) : ℚ) ≤ digits := by
      exact_mod_cast pow_digitCount_le hdigits
    rw [show (digitCount digits : Int) + e - 1 = ((digitCount digits - 1 : ℕ) : Int) + e by omega,
      zpow_add₀ (by norm_num), zpow_natCast]
    exact mul_le_mul_of_nonneg_right (by exact_mod_cast hle) hunit.le
  · have hlt : (digits : ℚ) < ((10 ^ digitCount digits : ℕ) : ℚ) := by
      exact_mod_cast lt_pow_digitCount digits
    rw [zpow_add₀ (by norm_num), zpow_natCast]
    exact mul_lt_mul_of_pos_right (by exact_mod_cast hlt) hunit

/-- Holds of the double that a number with the given sign is read as. -/
structure IsReadAs (negative : Bool) (r : ℚ) (m : Nat) (q : Int) (x : Double) : Prop where
  canonical : IsCanonical m q
  rounds : Rounds m q r
  finite : q < 972 → x.isNegative = negative ∧ x.significand = m ∧ x.exponent = q
  infinite : 972 ≤ q → x = infinity negative

theorem isReadAs_zero (negative : Bool) (hr : Rounds 0 (-1074) r) :
    IsReadAs negative r 0 (-1074) (ofMagnitude negative 0) :=
  ⟨isCanonical_zero, hr, fun _ ↦ parts_ofMagnitude isCanonical_zero (by decide),
    fun h ↦ absurd h (by decide)⟩

/-- A quotient is read as the double with its magnitude bits, or as an infinity. -/
theorem exists_isReadAs_nearestMagnitude (negative : Bool) (hnum : 0 < num) (hden : 0 < den) :
    ∃ m q, IsReadAs negative (num / den) m q
      (if 2047 * leadingUnit ≤ nearestMagnitude num den then infinity negative
        else ofMagnitude negative (nearestMagnitude num den)) := by
  obtain ⟨m, q, hcanonical, hrounds, hmagnitude⟩ := exists_canonical_nearestMagnitude hnum hden
  have hbits := hcanonical.bits
  have hleast := hcanonical.least
  have hbound : 2047 * leadingUnit ≤ nearestMagnitude num den ↔ 972 ≤ q := by
    have hleading := hcanonical.leading
    rw [hmagnitude]
    unfold leadingUnit at *
    constructor
    · intro h
      omega
    · intro h
      have := hleading (by omega)
      omega
  refine ⟨m, q, hcanonical, hrounds, fun hq ↦ ?_, fun hq ↦ if_pos (hbound.mpr hq)⟩
  rw [if_neg fun h ↦ absurd (hbound.mp h) (by omega), hmagnitude]
  refine parts_ofMagnitude hcanonical ?_
  unfold leadingUnit at *
  unfold signUnit
  omega

/-- A decimal is read as a double that it rounds to, or as an infinity. -/
theorem exists_isReadAs_ofDecimal (negative : Bool) (digits : Nat) (e : Int) :
    ∃ m q, IsReadAs negative (digits * (10 : ℚ) ^ e) m q (ofDecimal negative digits e) := by
  rw [ofDecimal]
  by_cases hdigits : digits = 0
  · rw [if_pos hdigits, hdigits, Nat.cast_zero, zero_mul]
    exact ⟨0, -1074, isReadAs_zero negative (rounds_zero _)⟩
  rw [if_neg hdigits]
  have hpos := Nat.pos_of_ne_zero hdigits
  obtain ⟨hlow, hhigh⟩ := zpow_le_and_lt_zpow hpos e
  have hvalue : digits * (10 : ℚ) ^ e =
      ((digits * (tenPower e).1 : ℕ) : ℚ) / ((tenPower e).2 : ℕ) := by
    have hden : ((tenPower e).2 : ℚ) ≠ 0 := Nat.cast_ne_zero.mpr (isPower_tenPower e).den_pos.ne'
    push_cast
    rw [cast_tenPower, ← mul_assoc, mul_div_cancel_right₀ _ hden]
  obtain ⟨m, q, h⟩ := exists_isReadAs_nearestMagnitude negative
    (Nat.mul_pos hpos (isPower_tenPower e).num_pos) (isPower_tenPower e).den_pos
  rw [← hvalue] at h
  dsimp only
  split_ifs with hgreat hsmall
  · refine ⟨m, q, h.canonical, h.rounds, fun hq ↦ ?_, fun _ ↦ rfl⟩
    have hlt := hlow.trans_lt (lt_of_rounds h.canonical hq h.rounds)
    exact absurd ((zpow_lt_zpow_iff_right₀ (by norm_num)).mp hlt) (by omega)
  · refine ⟨0, -1074, isReadAs_zero negative (rounds_zero_of_lt (by positivity) ?_)⟩
    exact hhigh.trans_le (zpow_le_zpow_right₀ (by norm_num) (by omega))
  · rw [if_pos ‹_›] at h
    exact ⟨m, q, h⟩
  · rw [if_neg ‹_›] at h
    exact ⟨m, q, h⟩

theorem isFinite_infinity (negative : Bool) : (infinity negative).isFinite = false := by
  cases negative <;> decide

end Double

/-! ### Numerals -/

namespace Numeral

variable {n : Numeral} {x : Double}

theorem exists_isReadAs_toDouble (n : Numeral) :
    ∃ m q, Double.IsReadAs n.negative n.value m q n.toDouble :=
  Double.exists_isReadAs_ofDecimal _ _ _

/-- The value of a numeral rounds to the finite double that it is read as. -/
theorem rounds_toDouble (h : n.toDouble.isFinite = true) :
    n.toDouble.isNegative = n.negative ∧
      Rounds n.toDouble.significand n.toDouble.exponent n.value := by
  obtain ⟨m, q, hread⟩ := n.exists_isReadAs_toDouble
  by_cases hq : q < 972
  · obtain ⟨hsign, hm, hq⟩ := hread.finite hq
    rw [hm, hq]
    exact ⟨hsign, hread.rounds⟩
  · rw [hread.infinite (not_lt.mp hq), Double.isFinite_infinity] at h
    exact absurd h Bool.false_ne_true

/-- A numeral is read as the finite double that its value rounds to. -/
theorem toDouble_of_rounds (hx : x.isFinite = true) (hsign : n.negative = x.isNegative)
    (h : Rounds x.significand x.exponent n.value) : n.toDouble = x := by
  obtain ⟨m, q, hread⟩ := n.exists_isReadAs_toDouble
  obtain ⟨hm, hq⟩ := h.unique hread.rounds x.isCanonical hread.canonical
  obtain ⟨hsign', hm', hq'⟩ := hread.finite (hq ▸ Double.isFinite_iff.mp hx)
  exact Double.eq_of_parts (hsign'.trans hsign) (hm'.trans hm.symm) (hq'.trans hq.symm)

end Numeral

end ApiManifest.Number
