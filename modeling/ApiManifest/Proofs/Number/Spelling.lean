import ApiManifest.Proofs.Number.Layout
import ApiManifest.Proofs.Number.Rounding

/-!
What the text of a finite double says. It is read as a numeral with the sign of the double, and the
value of that numeral rounds to it (`exists_ofChars?_text`). The text of any other is no numeral, so
that two doubles have one text as keys only if they are one, or both NaN (`text_key_eq_iff`).
-/

set_option autoImplicit false
set_option relaxedAutoImplicit false

namespace ApiManifest.Number

/-- The value of a numeral, without its sign. -/
def Numeral.value (n : Numeral) : ℚ :=
  natOfDigits (n.whole ++ n.fraction) * (10 : ℚ) ^ (n.exponent - n.fraction.length)

/-- Holds of a text that is read, behind either sign, as a numeral with the value. -/
def Spells (cs : List Char) (r : ℚ) : Prop :=
  ∀ negative, ∃ n, Numeral.unsigned? negative cs = some n ∧ n.negative = negative ∧ n.value = r

variable {ds whole fraction power : List Char} {e : Int}

/-! ### Reading numerals -/

/-- Digits before something else are split off. -/
theorem splitDigits_digits {c : Char} (hds : ∀ c ∈ ds, c.isDigit = true) (hc : c.isDigit = false)
    (rest : List Char) : Numeral.splitDigits (ds ++ c :: rest) = (ds, c :: rest) := by
  have hrest : ∀ d ∈ (c :: rest).head?, d.isDigit = false := by
    intro d hd
    rw [← Option.some.inj hd]
    exact hc
  rw [Numeral.splitDigits_append ds hrest, Numeral.splitDigits_of_digits hds, List.nil_append]

theorem exponent?_digits (hne : ds ≠ []) (hds : ∀ c ∈ ds, c.isDigit = true) :
    Numeral.exponent? ds = some (natOfDigits ds : Int) := by
  have hsign (c : Char) (hc : c.isDigit = false) (cs : List Char) : ds ≠ c :: cs := by
    rintro rfl
    rw [hds c List.mem_cons_self] at hc
    exact Bool.noConfusion hc
  unfold Numeral.exponent?
  split
  rename_i negative cs heq
  split at heq
  · rename_i cs
    exact absurd rfl (hsign '-' (by decide) cs)
  · rename_i cs
    exact absurd rfl (hsign '+' (by decide) cs)
  · obtain ⟨rfl, rfl⟩ := Prod.mk.inj heq
    rw [Numeral.splitDigits_of_digits hds]
    simp [hne]

theorem exponent?_minus (hne : ds ≠ []) (hds : ∀ c ∈ ds, c.isDigit = true) :
    Numeral.exponent? ('-' :: ds) = some (-(natOfDigits ds : Int)) := by
  unfold Numeral.exponent?
  simp only
  rw [Numeral.splitDigits_of_digits hds]
  simp [hne]

theorem exponent?_plus (hne : ds ≠ []) (hds : ∀ c ∈ ds, c.isDigit = true) :
    Numeral.exponent? ('+' :: ds) = some (natOfDigits ds : Int) := by
  unfold Numeral.exponent?
  simp only
  rw [Numeral.splitDigits_of_digits hds]
  simp [hne]

theorem unsigned?_fraction {negative : Bool} (hne : whole ≠ []) (hw : ∀ c ∈ whole, c.isDigit = true)
    (hf : ∀ c ∈ fraction, c.isDigit = true) :
    Numeral.unsigned? negative (whole ++ '.' :: fraction) =
      some ⟨negative, whole, fraction, 0⟩ := by
  unfold Numeral.unsigned?
  rw [splitDigits_digits hw (by decide) _]
  simp only [Numeral.splitDigits_of_digits hf]
  simp [hne]

theorem unsigned?_power {negative : Bool} (hne : whole ≠ []) (hw : ∀ c ∈ whole, c.isDigit = true)
    (hpower : Numeral.exponent? power = some e) :
    Numeral.unsigned? negative (whole ++ 'e' :: power) = some ⟨negative, whole, [], e⟩ := by
  unfold Numeral.unsigned?
  rw [splitDigits_digits hw (by decide) _]
  simp [hne, hpower]

theorem unsigned?_fraction_power {negative : Bool} (hne : whole ≠ [])
    (hw : ∀ c ∈ whole, c.isDigit = true) (hf : ∀ c ∈ fraction, c.isDigit = true)
    (hpower : Numeral.exponent? power = some e) :
    Numeral.unsigned? negative (whole ++ '.' :: fraction ++ 'e' :: power) =
      some ⟨negative, whole, fraction, e⟩ := by
  unfold Numeral.unsigned?
  rw [List.append_assoc, List.cons_append, splitDigits_digits hw (by decide) _]
  simp [hne, hpower, splitDigits_digits hf (show 'e'.isDigit = false by decide)]

/-- No sign stands in front of a text that is read behind one. -/
theorem Spells.ofChars? {cs : List Char} {r : ℚ} (h : Spells cs r) (negative : Bool) :
    Numeral.ofChars? ((if negative then ['-'] else []) ++ cs) = Numeral.unsigned? negative cs := by
  have hsign (c : Char) (hc : c = '-' ∨ c = '+') (tail : List Char) : cs ≠ c :: tail := by
    rintro rfl
    obtain ⟨n, hn, -⟩ := h false
    unfold Numeral.unsigned? at hn
    rw [Numeral.splitDigits_cons] at hn
    rcases hc with rfl | rfl
    · exact absurd hn (by simp)
    · exact absurd hn (by simp)
  cases negative with
  | true => rfl
  | false =>
    rw [if_neg Bool.false_ne_true, List.nil_append]
    unfold Numeral.ofChars?
    split
    · exact absurd rfl (hsign '-' (.inl rfl) _)
    · exact absurd rfl (hsign '+' (.inr rfl) _)
    · rfl

/-! ### The value of a spelling -/

theorem natOfDigits_append (as bs : List Char) :
    natOfDigits (as ++ bs) = 10 ^ bs.length * natOfDigits as + natOfDigits bs :=
  (Nat.ofDigitChars_append 0).trans Nat.ofDigitChars_eq_ofDigitChars_zero

theorem natOfDigits_zeros (n : Nat) : natOfDigits (List.replicate n '0') = 0 :=
  Nat.ofDigitChars_replicate_zero.trans (Nat.mul_zero _)

theorem spells_fraction (hne : whole ≠ []) (hw : ∀ c ∈ whole, c.isDigit = true)
    (hf : ∀ c ∈ fraction, c.isDigit = true) : Spells (whole ++ '.' :: fraction)
      (natOfDigits (whole ++ fraction) * (10 : ℚ) ^ (-(fraction.length : Int))) := by
  intro negative
  refine ⟨_, unsigned?_fraction hne hw hf, rfl, ?_⟩
  rw [Numeral.value, zero_sub]

/-- Digits with a point have the value that the exponent of the leading digit gives them. -/
theorem spells_positional (hne : ds ≠ []) (hds : ∀ c ∈ ds, c.isDigit = true) (e : Int) :
    Spells (positional ds e) (natOfDigits ds * (10 : ℚ) ^ (e + 1 - ds.length)) := by
  have hzero : '0'.isDigit = true := by decide
  have hzeros (n : Nat) : ∀ c ∈ List.replicate n '0', c.isDigit = true :=
    fun c hc ↦ List.eq_of_mem_replicate hc ▸ hzero
  unfold positional
  simp only
  split_ifs with hsmall hlong
  · have hspells := spells_fraction (List.cons_ne_nil '0' [])
      (List.forall_mem_singleton.mpr hzero)
      (List.forall_mem_append.mpr ⟨hzeros (-e - 1).toNat, hds⟩)
    have hvalue : natOfDigits (['0'] ++ (List.replicate (-e - 1).toNat '0' ++ ds)) =
        natOfDigits ds := by
      rw [natOfDigits_append, natOfDigits_append, natOfDigits_zeros]
      simp [natOfDigits]
    have hexponent : -((List.replicate (-e - 1).toNat '0' ++ ds).length : Int) =
        e + 1 - ds.length := by
      rw [List.length_append, List.length_replicate]
      omega
    rw [hvalue, hexponent] at hspells
    exact hspells
  · have hspells := spells_fraction (List.append_ne_nil_of_left_ne_nil hne
      (List.replicate (e.toNat + 1 - ds.length) '0')) (List.forall_mem_append.mpr ⟨hds, hzeros _⟩)
      (List.forall_mem_singleton.mpr hzero)
    have hvalue : natOfDigits (ds ++ List.replicate (e.toNat + 1 - ds.length) '0' ++ ['0']) =
        10 * (10 ^ (e.toNat + 1 - ds.length) * natOfDigits ds) := by
      rw [natOfDigits_append, natOfDigits_append, natOfDigits_zeros, List.length_replicate]
      rfl
    have hexponent : e + 1 - ds.length = ((e.toNat + 1 - ds.length : ℕ) : Int) := by omega
    have hscale : ((10 * (10 ^ (e.toNat + 1 - ds.length) * natOfDigits ds) : ℕ) : ℚ) *
        10 ^ (-(['0'].length : Int)) = natOfDigits ds * 10 ^ (e + 1 - ds.length) := by
      rw [hexponent, zpow_natCast]
      push_cast
      norm_num
      ring
    rw [hvalue, hscale] at hspells
    exact hspells
  · have htake : ds.take (e.toNat + 1) ≠ [] := by
      rw [Ne, List.take_eq_nil_iff]
      exact fun h ↦ h.elim (Nat.succ_ne_zero _) hne
    have hdrop : ∀ c ∈ ds.drop (e.toNat + 1), c.isDigit = true :=
      fun c hc ↦ hds c (List.mem_of_mem_drop hc)
    have hspells := spells_fraction htake (fun c hc ↦ hds c (List.mem_of_mem_take hc)) hdrop
    have hexponent : -((ds.drop (e.toNat + 1)).length : Int) = e + 1 - ds.length := by
      rw [List.length_drop]
      omega
    rw [List.take_append_drop, hexponent] at hspells
    exact hspells

theorem spells_zero : Spells ['0', '.', '0'] 0 := by
  have h := spells_positional (List.cons_ne_nil '0' [])
    (List.forall_mem_singleton.mpr (by decide)) 0
  rw [show natOfDigits ['0'] = 0 from rfl, Nat.cast_zero, zero_mul] at h
  exact h

/-- Holds of the layouts whose exponents a numeral may have. -/
def FloatLayout.IsSigned (layout : FloatLayout) : Prop :=
  layout.exponentSign = "" ∨ layout.exponentSign = "+"

theorem spells_scientific {layout : FloatLayout} (hlayout : layout.IsSigned) (hne : ds ≠ [])
    (hds : ∀ c ∈ ds, c.isDigit = true) (e : Int) :
    Spells (scientific layout ds e) (natOfDigits ds * (10 : ℚ) ^ (e + 1 - ds.length)) := by
  have hpower : Numeral.exponent? (if e < 0 then '-' :: Nat.toDigits 10 (-e).toNat
      else layout.exponentSign.toList ++ Nat.toDigits 10 e.toNat) = some e := by
    split_ifs with hsmall
    · rw [exponent?_minus Nat.toDigits_ne_nil (Yaml.isDigit_toDigits _), natOfDigits_toDigits]
      exact congrArg some (by omega)
    · have hvalue : some ((natOfDigits (Nat.toDigits 10 e.toNat) : Int)) = some e := by
        rw [natOfDigits_toDigits]
        exact congrArg some (by omega)
      rcases hlayout with hsign | hsign
      · rw [hsign, ← hvalue]
        exact exponent?_digits Nat.toDigits_ne_nil (Yaml.isDigit_toDigits _)
      · rw [hsign, ← hvalue]
        exact exponent?_plus Nat.toDigits_ne_nil (Yaml.isDigit_toDigits _)
  have hpos := List.length_pos_iff.mpr hne
  intro negative
  unfold scientific
  simp only
  by_cases hshort : ds.length ≤ 1
  · have hexponent : e - (([] : List Char).length : Int) = e + 1 - ds.length := by
      rw [List.length_nil]
      omega
    rw [if_pos hshort, List.append_nil, List.take_of_length_le hshort]
    refine ⟨_, unsigned?_power hne hds hpower, rfl, ?_⟩
    rw [Numeral.value, List.append_nil, hexponent]
  · have htake : ds.take 1 ≠ [] := by
      rw [Ne, List.take_eq_nil_iff]
      exact fun h ↦ h.elim Nat.one_ne_zero hne
    have hexponent : e - ((ds.drop 1).length : Int) = e + 1 - ds.length := by
      rw [List.length_drop]
      omega
    rw [if_neg hshort]
    refine ⟨_, unsigned?_fraction_power htake (fun c hc ↦ hds c (List.mem_of_mem_take hc))
      (fun c hc ↦ hds c (List.mem_of_mem_drop hc)) hpower, rfl, ?_⟩
    rw [Numeral.value, List.take_append_drop, hexponent]

/-! ### The text of a double -/

variable {x y : Double}

/-- The text of a finite double is read as a numeral with its sign that rounds to it. -/
theorem exists_ofChars?_text {layout : FloatLayout} (hlayout : layout.IsSigned)
    (hx : x.isFinite = true) :
    ∃ n, Numeral.ofChars? (layout.text x).toList = some n ∧ n.negative = x.isNegative ∧
      Rounds x.significand x.exponent n.value := by
  obtain ⟨hnan, hinfinite⟩ := Double.isNaN_and_isInfinite hx
  have hread {cs : List Char} {r : ℚ} (hcs : Spells cs r)
      (hr : Rounds x.significand x.exponent r) :
      ∃ n, Numeral.ofChars? (String.ofList ((if x.isNegative then ['-'] else []) ++ cs)).toList =
        some n ∧ n.negative = x.isNegative ∧ Rounds x.significand x.exponent n.value := by
    obtain ⟨n, hn, hnegative, rfl⟩ := hcs x.isNegative
    exact ⟨n, by rw [String.toList_ofList, hcs.ofChars?, hn], hnegative, hr⟩
  unfold FloatLayout.text
  simp only [hnan, hinfinite, Bool.false_eq_true, if_false]
  by_cases hzero : x.significand = 0
  · rw [if_pos hzero]
    exact hread spells_zero (hzero ▸ rounds_zero x.exponent)
  · have hshortest := Double.rounds_shortest hzero
    rw [if_neg hzero]
    generalize x.shortest = d at hshortest ⊢
    have hne := Nat.toDigits_ne_nil (b := 10) (n := d.digits)
    have hds := Yaml.isDigit_toDigits d.digits
    have hvalue : natOfDigits (Nat.toDigits 10 d.digits) = d.digits := natOfDigits_toDigits _
    generalize Nat.toDigits 10 d.digits = ds at hne hds hvalue ⊢
    have hrounds : Rounds x.significand x.exponent
        (natOfDigits ds * 10 ^ (d.exponent + (ds.length : Int) - 1 + 1 - ds.length)) := by
      rw [hvalue, show d.exponent + (ds.length : Int) - 1 + 1 - ds.length = d.exponent by omega]
      exact hshortest
    refine hread (r := _) ?_ hrounds
    split_ifs
    · exact spells_positional hne hds _
    · exact spells_scientific hlayout hne hds _

/-- The text of an infinity or of NaN is no numeral. -/
theorem ofChars?_text_eq_none (hx : x.isFinite = false) :
    Numeral.ofChars? (keyLayout.text x).toList = none := by
  rcases text_key_cases hx with ⟨-, htext⟩ | ⟨-, htext⟩
  · rw [htext]
    rfl
  · rw [htext]
    split_ifs
    · rfl
    · rfl

theorem Double.parts_of_isInfinite (hx : x.isInfinite = true) :
    x.significand = leadingUnit ∧ x.exponent = 972 := by
  obtain ⟨hfield, hfraction⟩ := Bool.and_eq_true_iff.mp hx
  rw [beq_iff_eq] at hfield hfraction
  unfold significand exponent
  rw [hfield, hfraction]
  exact ⟨rfl, rfl⟩

/-- Doubles that are not finite have one text only if they are one, or both NaN. -/
theorem eq_or_isNaN_of_text_eq (hx : x.isFinite = false) (hy : y.isFinite = false)
    (htext : keyLayout.text x = keyLayout.text y) : x = y ∨ x.isNaN = true ∧ y.isNaN = true := by
  have hsign (negative : Bool) : ".nan" ≠ if negative then "-.inf" else ".inf" := by
    cases negative with
    | true => decide
    | false => decide
  rcases text_key_cases hx with ⟨hnan, hx⟩ | ⟨hinfinite, hx⟩
  · rcases text_key_cases hy with ⟨hnan', hy⟩ | ⟨hinfinite', hy⟩
    · exact .inr ⟨hnan, hnan'⟩
    · rw [hx, hy] at htext
      exact absurd htext (hsign _)
  · rcases text_key_cases hy with ⟨hnan', hy⟩ | ⟨hinfinite', hy⟩
    · rw [hx, hy] at htext
      exact absurd htext.symm (hsign _)
    · obtain ⟨hm, hq⟩ := Double.parts_of_isInfinite hinfinite
      obtain ⟨hm', hq'⟩ := Double.parts_of_isInfinite hinfinite'
      refine .inl (Double.eq_of_parts ?_ (hm.trans hm'.symm) (hq.trans hq'.symm))
      rw [hx, hy] at htext
      cases hnegative : x.isNegative with
      | true =>
        cases hnegative' : y.isNegative with
        | true => rfl
        | false => exact absurd htext (by rw [hnegative, hnegative']; decide)
      | false =>
        cases hnegative' : y.isNegative with
        | true => exact absurd htext (by rw [hnegative, hnegative']; decide)
        | false => rfl

/-- As keys two doubles have one text only if they are one, or both NaN. -/
theorem text_key_eq_iff :
    keyLayout.text x = keyLayout.text y ↔ x = y ∨ x.isNaN = true ∧ y.isNaN = true := by
  have hlayout : keyLayout.IsSigned := .inl rfl
  constructor
  · intro htext
    by_cases hx : x.isFinite = true
    · obtain ⟨n, hn, hnegative, hrounds⟩ := exists_ofChars?_text hlayout hx
      by_cases hy : y.isFinite = true
      · obtain ⟨n', hn', hnegative', hrounds'⟩ := exists_ofChars?_text hlayout hy
        rw [htext, hn'] at hn
        obtain rfl := Option.some.inj hn
        obtain ⟨hm, hq⟩ := hrounds.unique hrounds' x.isCanonical y.isCanonical
        exact .inl (Double.eq_of_parts (hnegative.symm.trans hnegative') hm hq)
      · rw [htext, ofChars?_text_eq_none (Bool.eq_false_iff.mpr hy)] at hn
        exact absurd hn (by simp)
    · by_cases hy : y.isFinite = true
      · obtain ⟨n, hn, -⟩ := exists_ofChars?_text hlayout hy
        rw [← htext, ofChars?_text_eq_none (Bool.eq_false_iff.mpr hx)] at hn
        exact absurd hn (by simp)
      · exact eq_or_isNaN_of_text_eq (Bool.eq_false_iff.mpr hx) (Bool.eq_false_iff.mpr hy) htext
  · rintro (rfl | ⟨hx, hy⟩)
    · rfl
    · rw [FloatLayout.text, FloatLayout.text, if_pos hx, if_pos hy]

end ApiManifest.Number
