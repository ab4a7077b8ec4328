import ApiManifest.Proofs.Number.Nearest

/-!
The digits that a double is written with. Zeros at their end are dropped (`shortest_mod_ten`), and
fifteen digits are kept: the numbers that round to a double in the normal range lie closer together
than decimals of so many digits, so that of these it is written as the one that rounds to it
(`shortest_value_of_fifteen`).
-/

set_option autoImplicit false
set_option relaxedAutoImplicit false

namespace ApiManifest.Number

variable {m c c' : Nat} {q k k' : Int} {r s : ℚ}

/-! ### Zeros at the end -/

/-- All zeros at the end are dropped when there is room for them. -/
theorem Decimal.trim_mod_ten {fuel : Nat} {d : Decimal} (hpos : 0 < d.digits)
    (hfuel : d.digits < 10 ^ fuel) : (d.trim fuel).digits % 10 ≠ 0 := by
  induction fuel generalizing d with
  | zero => omega
  | succ fuel ih =>
    rw [Decimal.trim]
    split_ifs with hzero
    · exact ih (d := ⟨d.digits / 10, d.exponent + 1⟩) (show 0 < d.digits / 10 by omega)
        (show d.digits / 10 < 10 ^ fuel by rw [pow_succ] at hfuel; omega)
    · exact fun h ↦ hzero ⟨h, hpos.ne'⟩

/-- A decimal without zeros at the end has the least exponent of all decimals with its value. -/
theorem exponent_le_of_value_eq (hc : c % 10 ≠ 0) (h : c * (10 : ℚ) ^ k = c' * 10 ^ k') :
    k' ≤ k := by
  by_contra hlt
  obtain ⟨n, hn⟩ := Int.eq_ofNat_of_zero_le (show 0 ≤ k' - k - 1 by omega)
  obtain rfl : k' = k + (n + 1 : ℕ) := by omega
  rw [zpow_add₀ (by norm_num), zpow_natCast, mul_left_comm, mul_comm (c : ℚ)] at h
  have hcast : (c : ℚ) = ((c' * 10 ^ (n + 1) : ℕ) : ℚ) := by
    exact_mod_cast mul_left_cancel₀ (by positivity) h
  have heq : c = c' * 10 ^ (n + 1) := by exact_mod_cast hcast
  rw [pow_succ, ← mul_assoc] at heq
  omega

/-- Two decimals without zeros at the end are equal when their values are. -/
theorem Decimal.eq_of_value_eq {d d' : Decimal} (hd : d.digits % 10 ≠ 0) (hd' : d'.digits % 10 ≠ 0)
    (h : d.value = d'.value) : d = d' := by
  have hexponent : d.exponent = d'.exponent :=
    le_antisymm (exponent_le_of_value_eq hd' h.symm) (exponent_le_of_value_eq hd h)
  rw [Decimal.value, Decimal.value, hexponent] at h
  have hdigits : (d.digits : ℚ) = d'.digits := mul_right_cancel₀ (by positivity) h
  obtain ⟨digits, exponent⟩ := d
  obtain ⟨digits', exponent'⟩ := d'
  obtain rfl : exponent = exponent' := hexponent
  obtain rfl : digits = digits' := by exact_mod_cast hdigits
  rfl

/-! ### The search -/

/-- A quotient is less than the power of ten above its leading digit. -/
theorem lt_zpow_leadingExponent {num den : Nat} (hnum : 0 < num) (hden : 0 < den) :
    (num : ℚ) < 10 ^ (leadingExponent num den + 1) * den := by
  unfold leadingExponent
  by_cases hle : den ≤ num
  · have hlt := lt_pow_digitCount (num / den)
    rw [Nat.div_lt_iff_lt_mul hden] at hlt
    rw [if_pos hle, sub_add_cancel, zpow_natCast]
    exact_mod_cast hlt
  · -- What the quotient lacks to one is counted on the reciprocal.
    have hcount : 0 < digitCount (den / num) := Nat.length_toDigits_pos
    have hscale (j : Nat) : (num : ℚ) = 10 ^ (-(j : Int)) * (num * 10 ^ j : ℕ) := by
      push_cast
      rw [zpow_neg, zpow_natCast, mul_left_comm, inv_mul_cancel₀ (by positivity), mul_one]
    have hbelow : num * 10 ^ (digitCount (den / num) - 1) ≤ den := by
      rw [Nat.mul_comm]
      exact (Nat.le_div_iff_mul_le hnum).mp (pow_digitCount_le (Nat.div_pos (by omega) hnum))
    rw [if_neg hle]
    simp only
    generalize digitCount (den / num) - 1 = j at hbelow ⊢
    have hunit : (0 : ℚ) < 10 ^ (-(j : Int)) := by positivity
    split_ifs with hexact
    · have hcast : ((num * 10 ^ j : ℕ) : ℚ) < 10 * den := by
        exact_mod_cast (show num * 10 ^ j < 10 * den by omega)
      rw [hscale j, zpow_add_one₀ (by norm_num), mul_assoc]
      exact mul_lt_mul_of_pos_left hcast hunit
    · have hcast : ((num * 10 ^ j : ℕ) : ℚ) < den := by exact_mod_cast Nat.not_le.mp hexact
      rw [show -((j : Int) + 1) + 1 = -(j : Int) by ring]
      nth_rewrite 1 [hscale j]
      exact mul_lt_mul_of_pos_left hcast hunit

/-- The exponent of the leading digit of a double's value. -/
def valueExponent (m : Nat) (q : Int) : Int :=
  leadingExponent (RoundingInterval.of m q).value (RoundingInterval.of m q).den

theorem zpow_valueExponent_le_and_lt (hm : 0 < m) (q : Int) :
    (10 : ℚ) ^ valueExponent m q ≤ m * 2 ^ q ∧
      m * (2 : ℚ) ^ q < 10 ^ (valueExponent m q + 1) := by
  have hvalue : 0 < (RoundingInterval.of m q).value :=
    Nat.mul_pos (Nat.mul_pos (by decide) hm) (isPower_twoPower _).num_pos
  have hden : (0 : ℚ) < (RoundingInterval.of m q).den := Nat.cast_pos.mpr (den_of_pos m q)
  have hlow := zpow_leadingExponent_le hvalue (den_of_pos m q)
  have hhigh := lt_zpow_leadingExponent hvalue (den_of_pos m q)
  rw [cast_value_of] at hlow hhigh
  exact ⟨le_of_mul_le_mul_right hlow hden, lt_of_mul_lt_mul_right hhigh hden.le⟩

/-- Of numbers that are tried in turn the first with a result gives it. -/
theorem exists_of_findSome?_range {α : Type} {f : Nat → Option α} {x : α} {bound : Nat}
    (h : (List.range bound).findSome? f = some x) :
    ∃ n < bound, f n = some x ∧ ∀ n' < n, f n' = none := by
  obtain ⟨front, n, back, hsplit, hn, hfront⟩ := List.findSome?_eq_some_iff.mp h
  have hmem : n ∈ List.range bound := hsplit ▸ List.mem_append_right _ List.mem_cons_self
  refine ⟨n, List.mem_range.mp hmem, hn, fun n' hlt ↦ hfront n' ?_⟩
  have hsorted := List.pairwise_lt_range (n := bound)
  rw [hsplit] at hsorted
  have hmem' : n' ∈ front ++ n :: back :=
    hsplit ▸ List.mem_range.mpr (hlt.trans (List.mem_range.mp hmem))
  rcases List.mem_append.mp hmem' with hmem' | hmem'
  · exact hmem'
  · rcases List.mem_cons.mp hmem' with rfl | hmem'
    · exact absurd hlt (lt_irrefl _)
    · exact absurd ((List.pairwise_cons.mp (List.pairwise_append.mp hsorted).2.1).1 n' hmem')
        (Nat.not_lt.mpr hlt.le)

/-- Holds of what a search finds: a number that rounds to `m * 2 ^ q` on the first grid on which a
neighbour of it does. -/
structure IsFound (m : Nat) (q : Int) (n : Nat) (d : Decimal) : Prop where
  le : n ≤ 16
  neighbour : (RoundingInterval.of m q).neighbour? (valueExponent m q - n) = some d
  first : ∀ n' < n, (RoundingInterval.of m q).neighbour? (valueExponent m q - n') = none

theorem exists_isFound {x : Double} (hx : x.significand ≠ 0) :
    ∃ n d, IsFound x.significand x.exponent n d ∧ x.shortest = d.trim 20 := by
  have hpos := Nat.pos_of_ne_zero hx
  have hgrid : (10 : ℚ) ^ (valueExponent x.significand x.exponent - (16 : ℕ)) * 10 ^ 16 ≤
      x.significand * 2 ^ x.exponent := by
    rw [zpow_sub₀ (by norm_num), zpow_natCast, div_mul_cancel₀ _ (by positivity)]
    exact (zpow_valueExponent_le_and_lt hpos _).1
  have hfound : ((List.range 17).findSome? fun n : Nat ↦
      (RoundingInterval.of x.significand x.exponent).neighbour?
        (valueExponent x.significand x.exponent - n)).isSome = true :=
    List.findSome?_isSome_iff.mpr ⟨16, List.mem_range.mpr (by decide),
      isSome_neighbour? hpos x.isCanonical.bits hgrid⟩
  obtain ⟨d, hd⟩ := Option.isSome_iff_exists.mp hfound
  obtain ⟨n, hn, hneighbour, hfirst⟩ := exists_of_findSome?_range hd
  refine ⟨n, d, ⟨Nat.le_of_lt_succ hn, hneighbour, hfirst⟩, ?_⟩
  rw [Double.shortest]
  exact congrArg (fun found ↦ (found.getD ⟨0, 0⟩).trim 20) hd

variable {n : Nat} {d : Decimal}

/-- A neighbour that is taken is one of the two numbers that the value stands between. -/
theorem neighbour?_cases {i : RoundingInterval} (h : i.neighbour? k = some d) :
    d.exponent = k ∧ i.holds d.digits k = true ∧
      (d.digits = i.value * (tenPower k).2 / (i.den * (tenPower k).1) ∨
        d.digits = i.value * (tenPower k).2 / (i.den * (tenPower k).1) + 1) := by
  have hholds := holds_of_neighbour? h
  rw [RoundingInterval.neighbour?] at h
  simp only at h
  generalize i.value * (tenPower k).2 / (i.den * (tenPower k).1) = c at h ⊢
  have hd : d = ⟨c, k⟩ ∨ d = ⟨c + 1, k⟩ := by
    split at h
    · rw [← Option.some.inj h]
      split_ifs
      · exact .inr rfl
      · exact .inl rfl
    · exact .inl (Option.some.inj h).symm
    · exact .inr (Option.some.inj h).symm
    · exact absurd h (Option.some_ne_none d).symm
  rcases hd with rfl | rfl
  · exact ⟨rfl, hholds, .inl rfl⟩
  · exact ⟨rfl, hholds, .inr rfl⟩

theorem IsFound.rounds (h : IsFound m q n d) (hm : 0 < m) : Rounds m q d.value := by
  obtain ⟨hexponent, hholds, -⟩ := neighbour?_cases h.neighbour
  rw [holds_iff hm, ← hexponent] at hholds
  exact hholds

theorem lowEnd_pos (hm : 0 < m) (q : Int) : 0 < lowEnd m q := by
  have hmargin := marginBelow_le m q
  have hcast : (1 : ℚ) ≤ m := by exact_mod_cast hm
  exact mul_pos (by linarith) (by positivity)

/-- What is found has digits, and not more than the grid has. -/
theorem IsFound.digits (h : IsFound m q n d) (hm : 0 < m) :
    0 < d.digits ∧ d.digits ≤ 10 ^ (n + 1) := by
  constructor
  · refine Nat.pos_of_ne_zero fun hzero ↦ ?_
    have hlow := (h.rounds hm).low
    rw [Decimal.value, hzero, Nat.cast_zero, zero_mul] at hlow
    exact absurd hlow (not_le.mpr (lowEnd_pos hm q))
  · obtain ⟨-, -, hdigits⟩ := neighbour?_cases h.neighbour
    generalize hc : (RoundingInterval.of m q).value *
      (tenPower (valueExponent m q - n)).2 / ((RoundingInterval.of m q).den *
        (tenPower (valueExponent m q - n)).1) = c at hdigits
    have hfloor := (floor_le_and_lt m q (valueExponent m q - n) hc).1
    have hlt : (c : ℚ) < 10 ^ (n + 1) := by
      have hbound := hfloor.trans_lt (zpow_valueExponent_le_and_lt hm q).2
      rw [show valueExponent m q + 1 = (n + 1 : ℕ) + (valueExponent m q - n) by push_cast; ring,
        zpow_add₀ (by norm_num), zpow_natCast] at hbound
      exact lt_of_mul_lt_mul_right hbound (by positivity)
    have hlt' : c < 10 ^ (n + 1) := by exact_mod_cast hlt
    omega

/-- A double is written with digits that do not end in a zero. -/
theorem shortest_mod_ten {x : Double} (hx : x.significand ≠ 0) :
    x.shortest.digits % 10 ≠ 0 := by
  obtain ⟨n, d, hfound, hshortest⟩ := exists_isFound hx
  obtain ⟨hpos, hle⟩ := hfound.digits (Nat.pos_of_ne_zero hx)
  rw [hshortest]
  have hroom : n + 1 < 20 := Nat.lt_of_le_of_lt (Nat.succ_le_succ hfound.le) (by decide)
  exact Decimal.trim_mod_ten hpos (hle.trans_lt (Nat.pow_lt_pow_right (by decide) hroom))

/-! ### Fifteen digits -/

theorem rounds_self (m : Nat) (q : Int) : Rounds m q (m * 2 ^ q) :=
  ⟨(lowEnd_lt m q).le, (lt_highEnd m q).le, fun _ ↦ ⟨lowEnd_lt m q, lt_highEnd m q⟩⟩

/-- The numbers that round to a double lie in one unit of its last place. -/
theorem sub_le_of_rounds (hr : Rounds m q r) (hs : Rounds m q s) : s - r ≤ 2 ^ q := by
  have hunit : (0 : ℚ) < 2 ^ q := by positivity
  have hlow := hr.low
  have hhigh := hs.high
  have hmargin : (m - 1 / 2) * (2 : ℚ) ^ q ≤ lowEnd m q :=
    mul_le_mul_of_nonneg_right (by linarith [marginBelow_le m q]) hunit.le
  unfold highEnd at hhigh
  linarith

/-- Where a decimal of fifteen digits rounds to a double in the normal range, the unit of its last
place is greater than that of the double. -/
theorem zpow_lt_of_fifteen (hm : Double.leadingUnit ≤ m) (hc : c < 10 ^ 15)
    (hr : Rounds m q (c * (10 : ℚ) ^ k)) : (2 : ℚ) ^ q < 10 ^ k := by
  have hunit : (0 : ℚ) < 2 ^ q := by positivity
  have hbits : (4503599627370496 : ℚ) ≤ m := by exact_mod_cast hm
  have hdigits : (c : ℚ) < 1000000000000000 := by exact_mod_cast hc
  have hlow : (4503599627370495 : ℚ) * 2 ^ q ≤ lowEnd m q :=
    mul_le_mul_of_nonneg_right (by linarith [marginBelow_le m q]) hunit.le
  have hhigh : (c : ℚ) * 10 ^ k < 1000000000000000 * 10 ^ k :=
    mul_lt_mul_of_pos_right hdigits (by positivity)
  linarith [hr.low]

/-- Decimals with the last place in common that round to one double are one, if the unit of that
place is greater than that of the double. -/
theorem eq_of_rounds_of_zpow_lt (hunit : (2 : ℚ) ^ q < 10 ^ k) (hc : Rounds m q (c * (10 : ℚ) ^ k))
    (hc' : Rounds m q (c' * (10 : ℚ) ^ k)) : c = c' := by
  have hpos : (0 : ℚ) < 10 ^ k := by positivity
  have hle {a b : Nat} (ha : Rounds m q (a * (10 : ℚ) ^ k)) (hb : Rounds m q (b * (10 : ℚ) ^ k)) :
      b ≤ a := by
    have hdiff := (sub_le_of_rounds ha hb).trans_lt hunit
    have hlt : (b : ℚ) < a + 1 := by
      refine lt_of_mul_lt_mul_right (a := (10 : ℚ) ^ k) ?_ hpos.le
      linarith
    exact Nat.lt_succ_iff.mp (by exact_mod_cast hlt)
  exact le_antisymm (hle hc' hc) (hle hc hc')

/-- Such a decimal is one of the two that the double stands between. -/
theorem eq_or_eq_succ_of_rounds (hunit : (2 : ℚ) ^ q < 10 ^ k)
    (hc : Rounds m q (c * (10 : ℚ) ^ k)) (hfloor : c' * (10 : ℚ) ^ k ≤ m * 2 ^ q)
    (hceil : m * (2 : ℚ) ^ q < (c' + 1 : ℕ) * 10 ^ k) : c = c' ∨ c = c' + 1 := by
  have hpos : (0 : ℚ) < 10 ^ k := by positivity
  have hbelow := (sub_le_of_rounds (rounds_self m q) hc).trans_lt hunit
  have habove := (sub_le_of_rounds hc (rounds_self m q)).trans_lt hunit
  have hge : (c' : ℚ) < c + 1 := by
    refine lt_of_mul_lt_mul_right (a := (10 : ℚ) ^ k) ?_ hpos.le
    linarith
  have hle : (c : ℚ) < c' + 2 := by
    refine lt_of_mul_lt_mul_right (a := (10 : ℚ) ^ k) ?_ hpos.le
    push_cast at hceil
    linarith
  have hge' : c' < c + 1 := by exact_mod_cast hge
  have hle' : c < c' + 2 := by exact_mod_cast hle
  omega

/-- The search ends at the latest on the grid of such a decimal. -/
theorem IsFound.le_of_rounds (h : IsFound m q n d) (hm : 0 < m) (hunit : (2 : ℚ) ^ q < 10 ^ k)
    (hr : Rounds m q (c * (10 : ℚ) ^ k)) (hk : k ≤ valueExponent m q) :
    (n : Int) ≤ valueExponent m q - k := by
  have hgrid : ((RoundingInterval.of m q).neighbour? k).isSome = true := by
    obtain ⟨hfloor, hceil⟩ := floor_le_and_lt m q k rfl
    refine isSome_neighbour?_of_rounds hm rfl ?_
    rcases eq_or_eq_succ_of_rounds hunit hr hfloor hceil with heq | heq
    · exact .inl (heq ▸ hr)
    · exact .inr (heq ▸ hr)
  by_contra hlt
  have hnone := h.first (valueExponent m q - k).toNat (by omega)
  rw [show valueExponent m q - ((valueExponent m q - k).toNat : Int) = k by omega] at hnone
  rw [hnone] at hgrid
  exact absurd hgrid Bool.false_ne_true

/-- A decimal of at most fifteen digits can be written with exactly fifteen. -/
theorem exists_fifteen (hpos : 0 < c) (hc : c < 10 ^ 15) (k : Int) :
    ∃ (c' : Nat) (k' : Int), 10 ^ 14 ≤ c' ∧ c' < 10 ^ 15 ∧ c' * (10 : ℚ) ^ k' = c * 10 ^ k := by
  have hcount : digitCount c ≤ 15 :=
    (Nat.length_toDigits_le_iff (by decide) (by decide)).mpr hc
  have hcount' : 0 < digitCount c := Nat.length_toDigits_pos
  refine ⟨c * 10 ^ (15 - digitCount c), k - (15 - digitCount c : ℕ), ?_, ?_, ?_⟩
  · calc 10 ^ 14 = 10 ^ (digitCount c - 1) * 10 ^ (15 - digitCount c) := by
          rw [← pow_add]
          congr 1
          omega
      _ ≤ c * 10 ^ (15 - digitCount c) := Nat.mul_le_mul_right _ (pow_digitCount_le hpos)
  · calc c * 10 ^ (15 - digitCount c) < 10 ^ digitCount c * 10 ^ (15 - digitCount c) :=
          Nat.mul_lt_mul_of_pos_right (lt_pow_digitCount c) (by positivity)
      _ = 10 ^ 15 := by
          rw [← pow_add]
          congr 1
          omega
  · push_cast
    rw [zpow_sub₀ (by norm_num), zpow_natCast, mul_assoc,
      mul_div_cancel₀ _ (by positivity : (10 : ℚ) ^ (15 - digitCount c) ≠ 0)]

/-- The leading digit of a decimal of fifteen digits tells that of the double that it rounds to. -/
theorem valueExponent_of_fifteen (hm : Double.leadingUnit ≤ m) (hlow : 10 ^ 14 ≤ c)
    (hhigh : c < 10 ^ 15) (hr : Rounds m q (c * (10 : ℚ) ^ k)) :
    k + 13 ≤ valueExponent m q ∧ valueExponent m q ≤ k + 14 := by
  have hunit := zpow_lt_of_fifteen hm hhigh hr
  have hpos : (0 : ℚ) < 10 ^ k := by positivity
  obtain ⟨hexponent, hexponent'⟩ :=
    zpow_valueExponent_le_and_lt (m := m) (Nat.lt_of_lt_of_le (by decide) hm) q
  have hbelow := sub_le_of_rounds (rounds_self m q) hr
  have habove := sub_le_of_rounds hr (rounds_self m q)
  have hten (n : Nat) : (10 : ℚ) ^ n * 10 ^ k = 10 ^ (k + n) := by
    rw [zpow_add₀ (by norm_num), zpow_natCast, mul_comm]
  constructor
  · have hcast : (10 : ℚ) ^ 13 + 1 ≤ c := by exact_mod_cast (show 10 ^ 13 + 1 ≤ c by omega)
    have hscaled := mul_le_mul_of_nonneg_right hcast hpos.le
    rw [add_mul, hten] at hscaled
    have hlt : (10 : ℚ) ^ (k + (13 : ℕ)) < 10 ^ (valueExponent m q + 1) := by linarith
    have hlt' := (zpow_lt_zpow_iff_right₀ (by norm_num)).mp hlt
    push_cast at hlt'
    omega
  · have hcast : (c : ℚ) + 1 ≤ 10 ^ 15 := by exact_mod_cast (show c + 1 ≤ 10 ^ 15 by omega)
    have hscaled := mul_le_mul_of_nonneg_right hcast hpos.le
    rw [add_mul, hten] at hscaled
    have hlt : (10 : ℚ) ^ valueExponent m q < 10 ^ (k + (15 : ℕ)) := by linarith
    have hlt' := (zpow_lt_zpow_iff_right₀ (by norm_num)).mp hlt
    push_cast at hlt'
    omega

/-- A decimal of at most fifteen digits that rounds to a double in the normal range is what the
double is written as. -/
theorem shortest_value_of_fifteen {x : Double} (hx : Double.leadingUnit ≤ x.significand)
    (hc : c < 10 ^ 15) (hr : Rounds x.significand x.exponent (c * (10 : ℚ) ^ k)) :
    x.shortest.value = c * 10 ^ k := by
  have hpos : 0 < x.significand := Nat.lt_of_lt_of_le (by decide) hx
  have hc' : 0 < c := by
    refine Nat.pos_of_ne_zero fun hzero ↦ ?_
    have hlow := hr.low
    rw [hzero, Nat.cast_zero, zero_mul] at hlow
    exact absurd hlow (not_le.mpr (lowEnd_pos hpos _))
  obtain ⟨c, k, hlow, hhigh, hvalue⟩ := exists_fifteen hc' hc k
  rw [← hvalue] at hr ⊢
  have hunit := zpow_lt_of_fifteen hx hhigh hr
  obtain ⟨hexponent, hexponent'⟩ := valueExponent_of_fifteen hx hlow hhigh hr
  obtain ⟨n, d, hfound, hshortest⟩ := exists_isFound hpos.ne'
  have hn := hfound.le_of_rounds hpos hunit hr (by omega)
  obtain ⟨hd, -, -⟩ := neighbour?_cases hfound.neighbour
  -- What is found is a multiple of the last place of the decimal, and rounds to the same double.
  have hrounds := hfound.rounds hpos
  have hvalue : d.value = (d.digits * 10 ^ (d.exponent - k).toNat : ℕ) * 10 ^ k := by
    push_cast
    rw [Decimal.value, mul_assoc, ← zpow_natCast, ← zpow_add₀ (by norm_num)]
    congr 2
    omega
  rw [hvalue] at hrounds
  rw [hshortest, Decimal.value_trim, hvalue, eq_of_rounds_of_zpow_lt hunit hr hrounds]

end ApiManifest.Number
