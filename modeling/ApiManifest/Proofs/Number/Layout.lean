import ApiManifest.Proofs.Number.Integer
import Mathlib.Data.List.TakeDrop

/-!
The shape of the text of a double. A finite one is written with digits and, right behind them, a
point or the mark of an exponent (`exists_toList_text`), and the others with a point, so that no
double is written like a whole number (`IsDoubleText.ne_integerText`). Whole numbers have different
texts (`integerText_injective`).
-/

set_option autoImplicit false
set_option relaxedAutoImplicit false

namespace ApiManifest.Number

open Yaml

variable {layout : FloatLayout} {x : Double} {cs : List Char}

/-! ### Digits -/

theorem Numeral.splitDigits_cons (c : Char) (cs : List Char) : splitDigits (c :: cs) =
    if c.isDigit then (c :: (splitDigits cs).1, (splitDigits cs).2) else ([], c :: cs) := by
  simp only [splitDigits, List.span_eq_takeWhile_dropWhile, List.takeWhile_cons,
    List.dropWhile_cons]
  split_ifs <;> rfl

/-- Digits are split off alike whatever stands behind them that is no digit. -/
theorem Numeral.splitDigits_append (cs : List Char) {rest : List Char}
    (hrest : ∀ c ∈ rest.head?, c.isDigit = false) :
    splitDigits (cs ++ rest) = ((splitDigits cs).1, (splitDigits cs).2 ++ rest) := by
  induction cs with
  | nil =>
    cases rest with
    | nil => rfl
    | cons c rest =>
      rw [List.nil_append, splitDigits_cons, hrest c rfl]
      rfl
  | cons c cs ih =>
    rw [List.cons_append, splitDigits_cons, splitDigits_cons, ih]
    split_ifs <;> rfl

/-- Digits that stand alone are split off. -/
theorem Numeral.splitDigits_of_digits {ds : List Char} (hds : ∀ c ∈ ds, c.isDigit = true) :
    splitDigits ds = (ds, []) := by
  induction ds with
  | nil => rfl
  | cons c ds ih =>
    rw [splitDigits_cons, if_pos (hds c List.mem_cons_self),
      ih fun d hd ↦ hds d (List.mem_cons_of_mem c hd)]

theorem natOfDigits_toDigits (n : Nat) : natOfDigits (Nat.toDigits 10 n) = n :=
  Nat.ofDigitChars_ten_toDigits

/-! ### Texts -/

/-- Holds of a text that is made of digits and what follows them after a point or the mark of an
exponent, with or without a minus sign in front. -/
structure IsMarked (cs sign ds : List Char) (mark : Char) (tail : List Char) : Prop where
  eq : cs = sign ++ ds ++ mark :: tail
  sign : sign = [] ∨ sign = ['-']
  nonempty : ds ≠ []
  digits : ∀ c ∈ ds, c.isDigit = true
  mark : mark = '.' ∨ mark = 'e'

theorem exists_positional {ds : List Char} (hne : ds ≠ []) (hds : ∀ c ∈ ds, c.isDigit = true)
    (e : Int) : ∃ whole mark tail, IsMarked (positional ds e) [] whole mark tail := by
  have hzero : ('0' : Char).isDigit = true := by decide
  unfold positional
  simp only
  split_ifs
  · exact ⟨['0'], '.', _, rfl, .inl rfl, List.cons_ne_nil _ _, List.forall_mem_singleton.mpr hzero,
      .inl rfl⟩
  · refine ⟨ds ++ List.replicate (e.toNat + 1 - ds.length) '0', '.', ['0'], rfl, .inl rfl, ?_, ?_,
      .inl rfl⟩
    · exact List.append_ne_nil_of_left_ne_nil hne _
    · exact List.forall_mem_append.mpr ⟨hds, fun c hc ↦ List.eq_of_mem_replicate hc ▸ hzero⟩
  · refine ⟨ds.take (e.toNat + 1), '.', _, rfl, .inl rfl, ?_, fun c hc ↦ ?_, .inl rfl⟩
    · rw [Ne, List.take_eq_nil_iff]
      exact fun h ↦ h.elim (Nat.succ_ne_zero _) hne
    · exact hds c (List.mem_of_mem_take hc)

theorem exists_scientific {ds : List Char} (hne : ds ≠ []) (hds : ∀ c ∈ ds, c.isDigit = true)
    (layout : FloatLayout) (e : Int) :
    ∃ whole mark tail, IsMarked (scientific layout ds e) [] whole mark tail := by
  have hfirst : ds.take 1 ≠ [] := by
    rw [Ne, List.take_eq_nil_iff]
    exact fun h ↦ h.elim (Nat.succ_ne_zero _) hne
  have hdigits : ∀ c ∈ ds.take 1, c.isDigit = true := fun c hc ↦ hds c (List.mem_of_mem_take hc)
  unfold scientific
  simp only
  by_cases hshort : ds.length ≤ 1
  · rw [if_pos hshort, List.append_nil]
    exact ⟨ds.take 1, 'e', _, rfl, .inl rfl, hfirst, hdigits, .inr rfl⟩
  · rw [if_neg hshort, List.append_assoc, List.cons_append]
    exact ⟨ds.take 1, '.', _, rfl, .inl rfl, hfirst, hdigits, .inl rfl⟩

/-- Digits with a sign in front of them. -/
theorem IsMarked.signed {sign ds tail : List Char} {mark : Char} (h : IsMarked cs [] ds mark tail)
    (hsign : sign = [] ∨ sign = ['-']) :
    IsMarked (String.ofList (sign ++ cs)).toList sign ds mark tail where
  eq := by rw [String.toList_ofList, h.eq, List.nil_append, List.append_assoc]
  sign := hsign
  nonempty := h.nonempty
  digits := h.digits
  mark := h.mark

/-- A finite double is neither NaN nor an infinity. -/
theorem Double.isNaN_and_isInfinite (hx : x.isFinite = true) :
    x.isNaN = false ∧ x.isInfinite = false := by
  have hfield : (x.exponentField == 2047) = false := by
    rw [isFinite, bne, Bool.not_eq_true'] at hx
    exact hx
  rw [isNaN, isInfinite, hfield]
  exact ⟨Bool.false_and _, Bool.false_and _⟩

/-- A finite double is written with digits, and a point or the mark of an exponent behind them. -/
theorem exists_toList_text (layout : FloatLayout) (hx : x.isFinite = true) :
    ∃ sign ds mark tail, IsMarked (layout.text x).toList sign ds mark tail := by
  obtain ⟨hnan, hinfinite⟩ := Double.isNaN_and_isInfinite hx
  have hsign : (if x.isNegative then ['-'] else []) = [] ∨
      (if x.isNegative then ['-'] else []) = ['-'] := by
    split_ifs
    · exact .inr rfl
    · exact .inl rfl
  have hne := Nat.toDigits_ne_nil (b := 10) (n := x.shortest.digits)
  have hds := isDigit_toDigits x.shortest.digits
  unfold FloatLayout.text
  simp only [hnan, hinfinite, Bool.false_eq_true, if_false]
  generalize (if x.isNegative then ['-'] else []) = sign at hsign ⊢
  split_ifs
  · have hzero : IsMarked ['0', '.', '0'] [] ['0'] '.' ['0'] :=
      ⟨rfl, .inl rfl, List.cons_ne_nil _ _, List.forall_mem_singleton.mpr (by decide), .inl rfl⟩
    exact ⟨_, _, _, _, hzero.signed hsign⟩
  · obtain ⟨ds, mark, tail, h⟩ := exists_positional hne hds
      (x.shortest.exponent + ((Nat.toDigits 10 x.shortest.digits).length : Int) - 1)
    exact ⟨_, _, _, _, h.signed hsign⟩
  · obtain ⟨ds, mark, tail, h⟩ := exists_scientific hne hds layout
      (x.shortest.exponent + ((Nat.toDigits 10 x.shortest.digits).length : Int) - 1)
    exact ⟨_, _, _, _, h.signed hsign⟩

/-- Whole numbers have different texts. -/
theorem integerText_injective {m n : Int} (h : integerText m = integerText n) : m = n := by
  have hread := integer?_integerText m
  rw [h, integer?_integerText] at hread
  exact (Option.some.inj hread).symm

/-- The characters of a whole number are digits, with or without a minus sign. -/
theorem isDigit_of_mem_integerText {n : Int} {c : Char} (hc : c ∈ (integerText n).toList) :
    c.isDigit = true ∨ c = '-' := by
  cases n with
  | ofNat n =>
    rw [integerText, String.toList_ofList] at hc
    exact .inl (isDigit_toDigits n c hc)
  | negSucc n =>
    rw [integerText, String.toList_ofList] at hc
    rcases List.mem_cons.mp hc with rfl | hc
    · exact .inr rfl
    · exact .inl (isDigit_toDigits _ c hc)

/-- Holds of the texts that have a point or the mark of an exponent, and start with a sign, a point
or a digit. -/
structure IsDoubleText (s : String) : Prop where
  marked : '.' ∈ s.toList ∨ 'e' ∈ s.toList
  starts : ∃ c, s.toList.head? = some c ∧ (c = '-' ∨ c = '.' ∨ c.isDigit = true)

theorem IsMarked.isDoubleText {s : String} {sign ds tail : List Char} {mark : Char}
    (h : IsMarked s.toList sign ds mark tail) : IsDoubleText s where
  marked := by
    rw [h.eq]
    rcases h.mark with rfl | rfl
    · exact .inl (List.mem_append_right _ List.mem_cons_self)
    · exact .inr (List.mem_append_right _ List.mem_cons_self)
  starts := by
    cases hds : ds with
    | nil => exact absurd hds h.nonempty
    | cons d rest =>
      rw [h.eq, hds]
      rcases h.sign with rfl | rfl
      · exact ⟨d, rfl, .inr (.inr (h.digits d (hds ▸ List.mem_cons_self)))⟩
      · exact ⟨'-', rfl, .inl rfl⟩

/-- As a key a double that is not finite is written as NaN or as an infinity with its sign. -/
theorem text_key_cases (hx : x.isFinite = false) :
    x.isNaN = true ∧ keyLayout.text x = ".nan" ∨
      x.isInfinite = true ∧ keyLayout.text x = if x.isNegative then "-.inf" else ".inf" := by
  have hfield : (x.exponentField == 2047) = true := by
    rw [Double.isFinite, bne, Bool.not_eq_false'] at hx
    exact hx
  by_cases hnan : x.isNaN = true
  · exact .inl ⟨hnan, if_pos hnan⟩
  · have hinfinite : x.isInfinite = true := by
      rw [Double.isNaN, hfield, Bool.true_and, bne, Bool.not_eq_true, Bool.not_eq_false'] at hnan
      rw [Double.isInfinite, hfield, hnan]
      rfl
    refine .inr ⟨hinfinite, ?_⟩
    unfold FloatLayout.text
    simp only [if_neg hnan, if_pos hinfinite]
    cases x.isNegative with
    | true => rfl
    | false => rfl

/-- As a key every double has such a text, the infinities and NaN too. -/
theorem isDoubleText_key (x : Double) : IsDoubleText (keyLayout.text x) := by
  by_cases hfinite : x.isFinite = true
  · obtain ⟨sign, ds, mark, tail, h⟩ := exists_toList_text keyLayout hfinite
    exact h.isDoubleText
  · rcases text_key_cases (Bool.eq_false_iff.mpr hfinite) with ⟨-, htext⟩ | ⟨-, htext⟩
    · rw [htext]
      exact ⟨by decide, '.', rfl, .inr (.inl rfl)⟩
    · rw [htext]
      split_ifs
      · exact ⟨by decide, '-', rfl, .inl rfl⟩
      · exact ⟨by decide, '.', rfl, .inr (.inl rfl)⟩

/-- No double is written like a whole number. -/
theorem IsDoubleText.ne_integerText {s : String} (h : IsDoubleText s) (n : Int) :
    s ≠ integerText n := by
  rintro rfl
  rcases h.marked with hmark | hmark
  · rcases isDigit_of_mem_integerText hmark with hdigit | hminus
    · exact absurd hdigit (by decide)
    · exact absurd hminus (by decide)
  · rcases isDigit_of_mem_integerText hmark with hdigit | hminus
    · exact absurd hdigit (by decide)
    · exact absurd hminus (by decide)

end ApiManifest.Number
