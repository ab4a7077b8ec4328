import ApiManifest.Proofs.Number.Shortest

/-!
The spellings that numbers have as their text. A whole number is spelled with digits alone
(`integerText_eq_iff`). A double is spelled with a point or an exponent and without a zero at the
end that is not needed (`isStandardText_text`), and of these spellings those with at most fifteen
digits come back when they are read in the normal range (`text_toDouble_eq_iff`).
-/

set_option autoImplicit false
set_option relaxedAutoImplicit false

namespace ApiManifest.Number

open Yaml

/-! ### Digits -/

/-- Holds of digits the first of which is no zero. -/
structure IsLed (ds : List Char) : Prop where
  nonempty : ds ≠ []
  digits : ∀ c ∈ ds, c.isDigit = true
  head : ds.head? ≠ some '0'

/-- Holds of digits with no zero at either end. -/
structure IsTight (ds : List Char) : Prop extends IsLed ds where
  last : ds.getLast? ≠ some '0'

variable {ds : List Char} {n : Nat}

theorem isLed_toDigits (hn : 0 < n) : IsLed (Nat.toDigits 10 n) :=
  ⟨Nat.toDigits_ne_nil, isDigit_toDigits n, head?_toDigits hn⟩

/-- A digit is the one with its value. -/
theorem digitChar_toNat {c : Char} (hc : c.isDigit = true) :
    c.toNat - 48 < 10 ∧ Nat.digitChar (c.toNat - 48) = c := by
  have hlow : 48 ≤ c.toNat ∧ c.toNat ≤ 57 := by
    rw [Char.isDigit, Bool.and_eq_true, decide_eq_true_eq, decide_eq_true_eq] at hc
    exact hc
  refine ⟨by omega, Char.toNat_inj.mp ?_⟩
  rw [Nat.toNat_digitChar_of_lt_ten (by omega)]
  omega

theorem natOfDigits_append_singleton (ds : List Char) (c : Char) :
    natOfDigits (ds ++ [c]) = 10 * natOfDigits ds + (c.toNat - 48) := by
  rw [natOfDigits, List.foldl_append]
  rfl

/-- Digits without a zero in front are those of their number. -/
theorem toDigits_natOfDigits (h : IsLed ds) :
    0 < natOfDigits ds ∧ Nat.toDigits 10 (natOfDigits ds) = ds := by
  induction ds using List.reverseRecOn with
  | nil => exact absurd rfl h.nonempty
  | append_singleton ds c ih =>
    obtain ⟨hlt, hchar⟩ := digitChar_toNat (h.digits c (List.mem_append_right _ List.mem_cons_self))
    rw [natOfDigits_append_singleton]
    by_cases hne : ds = []
    · subst hne
      have hpos : 0 < c.toNat - 48 := by
        refine Nat.pos_of_ne_zero fun hzero ↦ h.head ?_
        rw [← hchar, hzero]
        rfl
      rw [show natOfDigits [] = 0 from rfl, Nat.mul_zero, Nat.zero_add, List.nil_append,
        Nat.toDigits_of_lt_base hlt, hchar]
      exact ⟨hpos, rfl⟩
    · obtain ⟨hpos, hdigits⟩ := ih ⟨hne, fun d hd ↦ h.digits d (List.mem_append_left _ hd), by
        rw [← List.head?_append_of_ne_nil _ hne]
        exact h.head⟩
      refine ⟨by omega, ?_⟩
      rw [← Nat.toDigits_append_toDigits (by decide) hpos hlt, hdigits,
        Nat.toDigits_of_lt_base hlt, hchar]

/-- Digits do not end in a zero when their number does not. -/
theorem isTight_iff (h : IsLed ds) : IsTight ds ↔ natOfDigits ds % 10 ≠ 0 := by
  obtain ⟨ds, c, rfl⟩ := (List.eq_nil_or_concat' ds).resolve_left h.nonempty
  obtain ⟨hlt, hchar⟩ := digitChar_toNat (h.digits c (List.mem_append_right _ List.mem_cons_self))
  have hzero : c = '0' ↔ c.toNat - 48 = 0 := by rw [← Nat.digitChar_eq_zero, hchar]
  rw [natOfDigits_append_singleton]
  constructor
  · intro htight hmod
    exact htight.last (by rw [List.getLast?_concat, hzero.mpr (by omega)])
  · intro hmod
    refine ⟨h, fun hlast ↦ hmod ?_⟩
    rw [List.getLast?_concat] at hlast
    rw [hzero.mp (Option.some.inj hlast), Nat.add_zero, Nat.mul_mod_right]

/-! ### Whole numbers -/

/-- Holds of the spellings of whole numbers by digits alone. -/
inductive IsPlainInteger : List Char → Prop
  | zero : IsPlainInteger ['0']
  | positive {ds : List Char} (h : IsLed ds) : IsPlainInteger ds
  | negative {ds : List Char} (h : IsLed ds) : IsPlainInteger ('-' :: ds)

theorem isPlainInteger_integerText (n : Int) : IsPlainInteger (integerText n).toList := by
  cases n with
  | ofNat n =>
    rw [integerText, String.toList_ofList]
    rcases Nat.eq_zero_or_pos n with rfl | hpos
    · exact .zero
    · exact .positive (isLed_toDigits hpos)
  | negSucc n =>
    rw [integerText, String.toList_ofList]
    exact .negative (isLed_toDigits n.succ_pos)

/-- A spelling by digits alone is the text of a number. -/
theorem IsPlainInteger.exists_integerText {s : String} (h : IsPlainInteger s.toList) :
    ∃ n, integerText n = s := by
  generalize hcs : s.toList = cs at h
  have hs : s = String.ofList cs := by rw [← hcs, String.ofList_toList]
  rw [hs]
  cases h with
  | zero => exact ⟨0, rfl⟩
  | positive h => exact ⟨.ofNat (natOfDigits cs), by rw [integerText, (toDigits_natOfDigits h).2]⟩
  | @negative ds h =>
    obtain ⟨hpos, hdigits⟩ := toDigits_natOfDigits h
    refine ⟨.negSucc (natOfDigits ds - 1), ?_⟩
    rw [integerText, Nat.sub_add_cancel hpos, hdigits]

/-- The text of a number is a spelling of it exactly when that has digits alone. -/
theorem integerText_eq_iff {s : String} {n : Int} (h : integer? s.toList = some n) :
    integerText n = s ↔ IsPlainInteger s.toList := by
  constructor
  · rintro rfl
    exact isPlainInteger_integerText n
  · intro hplain
    obtain ⟨k, rfl⟩ := hplain.exists_integerText
    rw [integer?_integerText] at h
    rw [Option.some.inj h]

/-! ### Doubles -/

/-- Digits with a point behind the first if there are more. -/
def pointed : List Char → List Char
  | d :: c :: rest => d :: '.' :: c :: rest
  | ds => ds

/-- Holds of the spellings without a sign that doubles have as their text. From 10^-5 up to below
10^16 these are digits with a point, and otherwise there is one digit before the point and an
exponent; no zero stands at the end but one behind the point. -/
inductive IsStandard : List Char → Prop
  | zero : IsStandard ['0', '.', '0']
  | whole {ds : List Char} {zeros : Nat} (h : IsTight ds) (hshort : ds.length + zeros ≤ 16) :
      IsStandard (ds ++ List.replicate zeros '0' ++ ['.', '0'])
  | mixed {whole fraction : List Char} (h : IsTight (whole ++ fraction)) (hwhole : whole ≠ [])
      (hfraction : fraction ≠ []) (hshort : whole.length ≤ 16) :
      IsStandard (whole ++ '.' :: fraction)
  | below {ds : List Char} {zeros : Nat} (h : IsTight ds) (hshort : zeros ≤ 4) :
      IsStandard ('0' :: '.' :: (List.replicate zeros '0' ++ ds))
  | great {ds : List Char} {n : Nat} (h : IsTight ds) (hn : 16 ≤ n) :
      IsStandard (pointed ds ++ 'e' :: '+' :: Nat.toDigits 10 n)
  | small {ds : List Char} {n : Nat} (h : IsTight ds) (hn : 6 ≤ n) :
      IsStandard (pointed ds ++ 'e' :: '-' :: Nat.toDigits 10 n)

/-- The text of digits whose leading digit has the exponent. -/
def spelling (ds : List Char) (e : Int) : List Char :=
  if jsonLayout.least ≤ e ∧ e ≤ jsonLayout.greatest then positional ds e
  else scientific jsonLayout ds e

theorem scientific_eq (ds : List Char) (e : Int) :
    scientific jsonLayout ds e = pointed ds ++ 'e' ::
      if e < 0 then '-' :: Nat.toDigits 10 (-e).toNat else '+' :: Nat.toDigits 10 e.toNat := by
  rcases ds with _ | ⟨d, _ | ⟨c, rest⟩⟩
  · rfl
  · rfl
  · rfl

/-- Digits with no zero at either end have such a spelling. -/
theorem isStandard_spelling (h : IsTight ds) (e : Int) : IsStandard (spelling ds e) := by
  have hlayout : jsonLayout.least = -5 ∧ jsonLayout.greatest = 15 := ⟨rfl, rfl⟩
  rw [spelling, hlayout.1, hlayout.2]
  split_ifs with he
  · unfold positional
    simp only
    split_ifs with hbelow hwhole
    · exact .below h (by omega)
    · exact .whole h (by omega)
    · have htake : ds.take (e.toNat + 1) ≠ [] := by
        rw [Ne, List.take_eq_nil_iff]
        exact fun hnil ↦ hnil.elim (Nat.succ_ne_zero _) h.nonempty
      have hdrop : ds.drop (e.toNat + 1) ≠ [] := by
        rw [Ne, List.drop_eq_nil_iff]
        exact hwhole
      refine .mixed ?_ htake hdrop ?_
      · rw [List.take_append_drop]
        exact h
      · rw [List.length_take]
        omega
  · rw [scientific_eq]
    split_ifs with hsmall
    · exact .small h (by omega)
    · exact .great h (by omega)

/-- Such a spelling other than that of zero is made of digits with no zero at either end. -/
theorem IsStandard.exists_spelling {cs : List Char} (h : IsStandard cs) :
    cs = ['0', '.', '0'] ∨ ∃ ds e, IsTight ds ∧ cs = spelling ds e := by
  have hlayout : jsonLayout.least = -5 ∧ jsonLayout.greatest = 15 := ⟨rfl, rfl⟩
  unfold spelling
  rw [hlayout.1, hlayout.2]
  cases h with
  | zero => exact .inl rfl
  | @whole ds zeros h hshort =>
    have hlength := List.length_pos_iff.mpr h.nonempty
    refine .inr ⟨ds, (ds.length + zeros - 1 : ℕ), h, ?_⟩
    rw [if_pos (by omega), positional, if_neg (by omega)]
    simp only
    rw [if_pos (by omega)]
    congr 3
    omega
  | @mixed whole fraction h hwhole hfraction hshort =>
    have hlength := List.length_pos_iff.mpr hwhole
    have hlength' := List.length_pos_iff.mpr hfraction
    refine .inr ⟨whole ++ fraction, (whole.length - 1 : ℕ), h, ?_⟩
    rw [if_pos (by omega), positional, if_neg (by omega)]
    simp only
    rw [List.length_append, if_neg (by omega), Int.toNat_natCast, Nat.sub_add_cancel hlength,
      List.take_left, List.drop_left]
  | @below ds zeros h hshort =>
    refine .inr ⟨ds, -(zeros + 1 : ℕ), h, ?_⟩
    rw [if_pos (by omega), positional, if_pos (by omega)]
    congr 4
    omega
  | @great ds n h hn =>
    refine .inr ⟨ds, n, h, ?_⟩
    rw [if_neg (by omega), scientific_eq, if_neg (by omega), Int.toNat_natCast]
  | @small ds n h hn =>
    refine .inr ⟨ds, -n, h, ?_⟩
    rw [if_neg (by omega), scientific_eq, if_pos (by omega), neg_neg, Int.toNat_natCast]

/-- The sign in front of a negative number. -/
def signOf (negative : Bool) : List Char := if negative then ['-'] else []

variable {x : Double}

/-- The text of a double other than zero, by its digits. -/
theorem toList_text (hx : x.isFinite = true) (hzero : x.significand ≠ 0) :
    (jsonLayout.text x).toList = signOf x.isNegative ++
      spelling (Nat.toDigits 10 x.shortest.digits)
        (x.shortest.exponent + (Nat.toDigits 10 x.shortest.digits).length - 1) := by
  obtain ⟨hnan, hinfinite⟩ := Double.isNaN_and_isInfinite hx
  unfold FloatLayout.text
  simp only [hnan, hinfinite, Bool.false_eq_true, if_false, if_neg hzero, String.toList_ofList]
  rfl

theorem toList_text_zero (hx : x.isFinite = true) (hzero : x.significand = 0) :
    (jsonLayout.text x).toList = signOf x.isNegative ++ ['0', '.', '0'] := by
  obtain ⟨hnan, hinfinite⟩ := Double.isNaN_and_isInfinite hx
  unfold FloatLayout.text
  simp only [hnan, hinfinite, Bool.false_eq_true, if_false, if_pos hzero, String.toList_ofList]
  rfl

/-- The digits of a double other than zero have no zero at either end. -/
theorem isTight_shortest (hzero : x.significand ≠ 0) :
    IsTight (Nat.toDigits 10 x.shortest.digits) := by
  have hmod := shortest_mod_ten hzero
  refine (isTight_iff (isLed_toDigits (by omega))).mpr ?_
  rw [natOfDigits_toDigits]
  exact hmod

/-- The text of a double has such a spelling behind its sign. -/
theorem exists_isStandard_text (hx : x.isFinite = true) :
    ∃ cs, (jsonLayout.text x).toList = signOf x.isNegative ++ cs ∧ IsStandard cs := by
  by_cases hzero : x.significand = 0
  · exact ⟨_, toList_text_zero hx hzero, .zero⟩
  · exact ⟨_, toList_text hx hzero, isStandard_spelling (isTight_shortest hzero) _⟩

/-- The value that digits have whose leading digit has the exponent. -/
theorem spells_spelling (h : IsTight ds) (e : Int) :
    Spells (spelling ds e) (natOfDigits ds * (10 : ℚ) ^ (e + 1 - ds.length)) := by
  unfold spelling
  split_ifs
  · exact spells_positional h.nonempty h.digits e
  · exact spells_scientific (.inr rfl) h.nonempty h.digits e

/-- Holds of the numbers that are decimals of at most fifteen digits, and are zero or no less than
the least numbers that doubles have with all their bits. -/
structure IsShort (r : ℚ) : Prop where
  fifteen : ∃ (c : Nat) (k : Int), c < 10 ^ 15 ∧ r = c * 10 ^ k
  normal : r = 0 ∨ 10 ^ (-307 : Int) ≤ r

/-- A double that such a number rounds to has all its bits. -/
theorem leadingUnit_le_of_rounds {m : Nat} {q : Int} {r : ℚ} (hm : IsCanonical m q)
    (hr : Rounds m q r) (hnormal : 10 ^ (-307 : Int) ≤ r) : Double.leadingUnit ≤ m := by
  by_contra hlt
  have hq : q = -1074 := by
    by_contra hne
    exact hlt (hm.leading (lt_of_le_of_ne hm.least (Ne.symm hne)))
  have hbits : (m : ℚ) + 1 / 2 ≤ 2 ^ (52 : Int) := by
    have hcast : (m : ℚ) + 1 ≤ 4503599627370496 := by
      exact_mod_cast Nat.not_le.mp hlt
    norm_num
    linarith
  have hsmall : (10 : ℕ) ^ 307 < 2 ^ 1022 := by decide +kernel
  have hinv : (2 : ℚ) ^ (-1022 : Int) < 10 ^ (-307 : Int) := by
    have hcast : (10 : ℚ) ^ (307 : ℕ) < 2 ^ (1022 : ℕ) := by exact_mod_cast hsmall
    rw [zpow_neg, zpow_neg]
    exact_mod_cast inv_strictAnti₀ (by positivity) hcast
  have hhigh : r ≤ 2 ^ (-1022 : Int) := by
    calc r ≤ ((m : ℚ) + 1 / 2) * 2 ^ q := hr.high
      _ ≤ 2 ^ (52 : Int) * 2 ^ q := mul_le_mul_of_nonneg_right hbits (by positivity)
      _ = 2 ^ (-1022 : Int) := by
          rw [hq, ← zpow_add₀ two_ne_zero]
          rfl
  linarith

/-- A finite double that digits round to, if they are few, is written with them. -/
theorem toList_text_of_spelling (h : IsTight ds) (e : Int) (hx : x.isFinite = true)
    (hr : Rounds x.significand x.exponent (natOfDigits ds * (10 : ℚ) ^ (e + 1 - ds.length)))
    (hshort : IsShort (natOfDigits ds * (10 : ℚ) ^ (e + 1 - ds.length))) :
    (jsonLayout.text x).toList = signOf x.isNegative ++ spelling ds e := by
  obtain ⟨hpos, hdigits⟩ := toDigits_natOfDigits h.toIsLed
  have hvalue : (0 : ℚ) < natOfDigits ds * 10 ^ (e + 1 - ds.length) :=
    mul_pos (Nat.cast_pos.mpr hpos) (by positivity)
  have hnormal := leadingUnit_le_of_rounds x.isCanonical hr
    (hshort.normal.resolve_left hvalue.ne')
  have hzero : x.significand ≠ 0 := (Nat.lt_of_lt_of_le (by decide) hnormal).ne'
  obtain ⟨c, k, hc, heq⟩ := hshort.fifteen
  have hsame : x.shortest = ⟨natOfDigits ds, e + 1 - ds.length⟩ := by
    refine Decimal.eq_of_value_eq (shortest_mod_ten hzero) ((isTight_iff h.toIsLed).mp h) ?_
    rw [shortest_value_of_fifteen hnormal hc (heq ▸ hr), ← heq, Decimal.value]
  rw [toList_text hx hzero, hsame]
  simp only
  rw [hdigits, show e + 1 - (ds.length : Int) + ds.length - 1 = e by ring]

/-- A short number in such a spelling is written as it is spelled. -/
theorem toList_text_of_isStandard {negative : Bool} {cs : List Char} {n : Numeral}
    (hread : Numeral.ofChars? (signOf negative ++ cs) = some n) (hcs : IsStandard cs)
    (hfinite : n.toDouble.isFinite = true) (hshort : IsShort n.value) :
    (jsonLayout.text n.toDouble).toList = signOf negative ++ cs := by
  obtain ⟨hsign, hrounds⟩ := Numeral.rounds_toDouble hfinite
  have hspells {r : ℚ} (h : Spells cs r) : n.negative = negative ∧ n.value = r := by
    obtain ⟨n', hn', hnegative, hvalue⟩ := h negative
    rw [signOf, h.ofChars?, hn'] at hread
    obtain rfl := Option.some.inj hread
    exact ⟨hnegative, hvalue⟩
  rcases hcs.exists_spelling with rfl | ⟨ds, e, hds, rfl⟩
  · obtain ⟨hnegative, hvalue⟩ := hspells spells_zero
    rw [hvalue] at hrounds
    have hzero : n.toDouble.significand = 0 := (hrounds.unique (rounds_zero (-1074))
      n.toDouble.isCanonical isCanonical_zero).1
    rw [toList_text_zero hfinite hzero, hsign, hnegative]
  · obtain ⟨hnegative, hvalue⟩ := hspells (spells_spelling hds e)
    rw [hvalue] at hrounds hshort
    rw [toList_text_of_spelling hds e hfinite hrounds hshort, hsign, hnegative]

/-- Holds of the texts that have such a spelling behind a sign. -/
def IsStandardText (s : String) : Prop :=
  ∃ negative cs, s.toList = signOf negative ++ cs ∧ IsStandard cs

/-- Holds of the texts that are numerals of short numbers. -/
def IsShortText (s : String) : Prop := ∃ n, Numeral.ofChars? s.toList = some n ∧ IsShort n.value

theorem isStandardText_text (hx : x.isFinite = true) : IsStandardText (jsonLayout.text x) := by
  obtain ⟨cs, htext, hcs⟩ := exists_isStandard_text hx
  exact ⟨x.isNegative, cs, htext, hcs⟩

/-- The double that a short number is read as has the spelling as its text exactly when that is such
a spelling. -/
theorem text_toDouble_eq_iff {s : String} {n : Numeral} (hread : Numeral.ofChars? s.toList = some n)
    (hfinite : n.toDouble.isFinite = true) (hshort : IsShortText s) :
    jsonLayout.text n.toDouble = s ↔ IsStandardText s := by
  constructor
  · intro htext
    exact htext ▸ isStandardText_text hfinite
  · rintro ⟨negative, cs, hs, hcs⟩
    obtain ⟨n', hn', hvalue⟩ := hshort
    obtain rfl := Option.some.inj (hread.symm.trans hn')
    rw [hs] at hread
    rw [← String.toList_inj, toList_text_of_isStandard hread hcs hfinite hvalue, hs]

end ApiManifest.Number
