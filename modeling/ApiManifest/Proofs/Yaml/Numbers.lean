import ApiManifest.Proofs.Number.Standard
import ApiManifest.Proofs.Results

/-!
Plain scalars that stand for numbers. The text of a finite double stands for that double
(`atomOfPlain_text`), so that a number is told by its text however it is spelled. Its text is the
spelling itself for whole numbers spelled with digits alone and for short numbers in the spelling
that doubles have (`integerText_eq_iff_of_scalar`, `text_eq_iff_of_scalar`).
-/

set_option autoImplicit false
set_option relaxedAutoImplicit false

namespace ApiManifest.Yaml

open Number

variable {tag : Option Tag} {s : String} {cs sign ds tail : List Char} {mark : Char} {x : Double}

/-! ### Reading a number without a tag -/

theorem not_isDigit_of_mark (hmark : mark = '.' ∨ mark = 'e') : mark.isDigit = false := by
  rcases hmark with rfl | rfl
  · decide
  · decide

/-- Digits with a point or the mark of an exponent behind them are no whole number. -/
theorem magnitude?_eq_none (hds : ∀ c ∈ ds, c.isDigit = true) (hne : ds ≠ [])
    (hmark : mark = '.' ∨ mark = 'e') : magnitude? (ds ++ mark :: tail) = none := by
  have hletter (c : Char) (hc : c.isDigit = false ∧ c ≠ '.' ∧ c ≠ 'e') (rest : List Char) :
      ds ++ mark :: tail ≠ '0' :: c :: rest := by
    intro h
    rcases ds with _ | ⟨d, _ | ⟨d', ds⟩⟩
    · exact hne rfl
    · obtain rfl : mark = c := (List.cons.inj (List.cons.inj h).2).1
      exact hmark.elim hc.2.1 hc.2.2
    · obtain rfl : d' = c := (List.cons.inj (List.cons.inj h).2).1
      rw [hds d' (List.mem_cons_of_mem _ List.mem_cons_self)] at hc
      exact Bool.noConfusion hc.1
  have hstep (n : Nat) : (do
      let d ← Text.hexValue? mark
      if d < 10 then some (10 * n + d) else none) = (none : Option Nat) := by
    rcases hmark with rfl | rfl
    · rfl
    · rfl
  rw [magnitude?.eq_4 _ (fun rest ↦ hletter 'x' (by decide) rest)
    (fun rest ↦ hletter 'o' (by decide) rest) (fun rest ↦ hletter 'b' (by decide) rest), natInBase?,
    if_neg (by simp), List.foldlM_append]
  simp only [List.foldlM_cons, hstep]
  simp

/-- What is written with a point or an exponent is no whole number. -/
theorem hasLeadingZero_and_integer? (h : IsMarked cs sign ds mark tail) :
    hasLeadingZero cs = false ∧ integer? cs = none := by
  have hdigit := not_isDigit_of_mark h.mark
  obtain ⟨d, rest, hds⟩ := List.exists_cons_of_ne_nil h.nonempty
  have hd : d.isDigit = true := h.digits d (hds ▸ List.mem_cons_self)
  have hsign {c : Char} (hc : c.isDigit = false) (cs' : List Char) :
      ds ++ mark :: tail ≠ c :: cs' := by
    rw [hds]
    intro heq
    rw [(List.cons.inj heq).1, hc] at hd
    exact Bool.noConfusion hd
  have hdrop : dropSign cs = ds ++ mark :: tail := by
    rw [h.eq]
    rcases h.sign with rfl | rfl
    · exact dropSign.eq_3 _ (fun cs' ↦ hsign (by decide) cs') (fun cs' ↦ hsign (by decide) cs')
    · rfl
  have hzero : hasLeadingZero cs = false := by
    rw [hasLeadingZero, hdrop]
    split
    · rename_i c cs' heq
      refine Bool.eq_false_iff.mpr fun hall ↦ ?_
      have hmem : mark ∈ c :: cs' := by
        rw [hds] at heq
        rw [← (List.cons.inj heq).2]
        exact List.mem_append_right _ List.mem_cons_self
      rw [List.all_eq_true.mp hall mark hmem] at hdigit
      exact Bool.noConfusion hdigit
    · rfl
  have hnone : magnitude? (ds ++ mark :: tail) = none :=
    magnitude?_eq_none h.digits h.nonempty h.mark
  refine ⟨hzero, ?_⟩
  unfold integer?
  rw [hzero, if_neg Bool.false_ne_true, h.eq]
  rcases h.sign with rfl | rfl
  · rw [List.nil_append]
    split
    · exact absurd ‹_› (hsign (by decide) _)
    · exact absurd ‹_› (hsign (by decide) _)
    · rw [hnone]
      rfl
  · simp only [List.cons_append, List.nil_append, hnone]
    rfl

/-- Whether a text starts with a digit, with or without a minus sign in front. -/
def startsWithDigit : List Char → Bool
  | '-' :: c :: _ => c.isDigit
  | c :: _ => c.isDigit
  | [] => false

theorem startsWithDigit_of_isMarked (h : IsMarked cs sign ds mark tail) :
    startsWithDigit cs = true := by
  obtain ⟨d, rest, hds⟩ := List.exists_cons_of_ne_nil h.nonempty
  have hd : d.isDigit = true := h.digits d (hds ▸ List.mem_cons_self)
  rw [h.eq, hds]
  rcases h.sign with rfl | rfl
  · rw [List.nil_append, List.cons_append]
    unfold startsWithDigit
    split
    · rename_i heq
      rw [(List.cons.inj heq).1] at hd
      exact absurd hd (by decide)
    · rename_i heq
      rwa [← (List.cons.inj heq).1]
    · exact absurd ‹_› (List.cons_ne_nil _ _)
  · exact hd

/-- A text that starts so is none of the words that stand for something. -/
theorem ne_of_startsWithDigit (h : startsWithDigit s.toList = true) (word : String)
    (hword : startsWithDigit word.toList = false) : (s == word) = false := by
  refine beq_eq_false_iff_ne.mpr ?_
  rintro rfl
  rw [h] at hword
  exact Bool.noConfusion hword

/-- A number with a point or an exponent is read as the double of the numeral. -/
theorem atomOfPlain_of_isMarked (h : IsMarked s.toList sign ds mark tail) :
    atomOfPlain s = match double? s.toList with
      | some x => .float x
      | none => .text := by
  have hne := ne_of_startsWithDigit (startsWithDigit_of_isMarked h)
  obtain ⟨hzero, hinteger⟩ := hasLeadingZero_and_integer? h
  have hempty : s.isEmpty = false := by
    rw [Bool.eq_false_iff, ne_eq, String.isEmpty_iff]
    exact beq_eq_false_iff_ne.mp (hne "" rfl)
  have hnull : isNullWord s = false := by
    rw [isNullWord, hne "null" rfl, hne "Null" rfl, hne "NULL" rfl, hne "~" rfl]
    rfl
  have hbool : boolOfWord? s = none := by
    rw [boolOfWord?, hne "true" rfl, hne "True" rfl, hne "TRUE" rfl, hne "false" rfl,
      hne "False" rfl, hne "FALSE" rfl]
    rfl
  rw [atomOfPlain, hempty, hnull, hbool, hinteger, hzero]
  rfl

/-- A numeral that starts with a digit is read as its double, if that is finite. -/
theorem double?_of_ofChars? {n : Numeral} (hs : startsWithDigit cs = true)
    (h : Numeral.ofChars? cs = some n) (hn : n.toDouble.isFinite = true) :
    double? cs = some n.toDouble := by
  have hne := ne_of_startsWithDigit (s := String.ofList cs) (by rwa [String.toList_ofList])
  unfold double?
  extract_lets text unsigned
  have hunsigned : unsigned = text := by
    simp only [unsigned]
    split
    · exact absurd hs (by simp [startsWithDigit])
    · rfl
  rw [hunsigned, hne ".inf" rfl, hne ".Inf" rfl, hne ".INF" rfl, hne "-.inf" rfl, hne "-.Inf" rfl,
    hne "-.INF" rfl, hne ".nan" rfl, hne ".NaN" rfl, hne ".NAN" rfl, h]
  exact if_pos hn

/-- The text of a finite double stands for the double. -/
theorem atomOfPlain_text (hx : x.isFinite = true) :
    atomOfPlain (jsonLayout.text x) = .float x := by
  obtain ⟨sign, ds, mark, tail, hmarked⟩ := exists_toList_text jsonLayout hx
  have hlayout : jsonLayout.IsSigned := .inr rfl
  obtain ⟨n, hn, hnegative, hrounds⟩ := exists_ofChars?_text hlayout hx
  have hdouble := Numeral.toDouble_of_rounds hx hnegative hrounds
  rw [atomOfPlain_of_isMarked hmarked, double?_of_ofChars? (startsWithDigit_of_isMarked hmarked) hn
    (hdouble ▸ hx), hdouble]

/-! ### What a number is read from -/

theorem atomOfInteger?_eq_some {k : Int} {a : Atom} (h : atomOfInteger? k = some a) :
    (∃ n : Whole, a = .int n ∧ n.val = k) ∨ a = .wide := by
  unfold atomOfInteger? at h
  split at h
  · rename_i n hn
    unfold Whole.ofInt? at hn
    split_ifs at hn
    rw [← Option.some.inj hn] at h
    exact .inl ⟨_, (Option.some.inj h).symm, rfl⟩
  · split_ifs at h
    exact .inr (Option.some.inj h).symm

/-- Holds of what a spelling stands for when the number, if it is one, is read from the spelling. -/
structure IsReadFrom (s : String) (a : Atom) : Prop where
  int : ∀ n : Whole, a = .int n → integer? s.toList = some n.val
  float : ∀ x, a = .float x → double? s.toList = some x

theorem isReadFrom_of_integer? {a : Atom}
    (h : (integer? s.toList).bind atomOfInteger? = some a) : IsReadFrom s a := by
  obtain ⟨k, hk, ha⟩ := Option.bind_eq_some_iff.mp h
  rcases atomOfInteger?_eq_some ha with ⟨n, rfl, rfl⟩ | rfl
  · exact ⟨fun m hm ↦ Atom.int.inj hm ▸ hk, fun _ ↦ (nomatch ·)⟩
  · exact ⟨fun _ ↦ (nomatch ·), fun _ ↦ (nomatch ·)⟩

theorem isReadFrom_of_double? (h : double? s.toList = some x) : IsReadFrom s (.float x) :=
  ⟨fun _ ↦ (nomatch ·), fun _ hy ↦ Atom.float.inj hy ▸ h⟩

theorem isReadFrom_null : IsReadFrom s .null := ⟨fun _ ↦ (nomatch ·), fun _ ↦ (nomatch ·)⟩

theorem isReadFrom_bool {b : Bool} : IsReadFrom s (.bool b) :=
  ⟨fun _ ↦ (nomatch ·), fun _ ↦ (nomatch ·)⟩

theorem isReadFrom_text : IsReadFrom s .text := ⟨fun _ ↦ (nomatch ·), fun _ ↦ (nomatch ·)⟩

theorem isReadFrom_atomOfPlain (s : String) : IsReadFrom s (atomOfPlain s) := by
  unfold atomOfPlain
  split
  · exact isReadFrom_null
  split
  · exact isReadFrom_bool
  split
  · exact isReadFrom_of_integer? ‹_›
  split
  · exact isReadFrom_text
  split
  · exact isReadFrom_of_double? ‹_›
  · exact isReadFrom_text

/-- A plain scalar that stands for a number is read as a whole number or as a double. -/
theorem isReadFrom_of_atomOfScalar {a : Atom} (h : atomOfScalar tag .plain s = .ok a) :
    IsReadFrom s a := by
  have hplain := isReadFrom_atomOfPlain s
  unfold atomOfScalar at h
  simp only [if_true] at h
  cases tag with
  | none => exact Except.ok.inj h ▸ hplain
  | some tag =>
    dsimp only at h
    split at h
    · split at h
      · exact Except.ok.inj h ▸ isReadFrom_bool
      · exact nomatch h
    split at h
    · split at h
      · exact Except.ok.inj h ▸ isReadFrom_of_integer? ‹_›
      · exact nomatch h
    split at h
    · split at h
      · exact Except.ok.inj h ▸ isReadFrom_of_double? ‹_›
      · exact nomatch h
    split at h
    · split at h
      · exact Except.ok.inj h ▸ isReadFrom_null
      · exact nomatch h
    split at h
    · exact Except.ok.inj h ▸ hplain
    · exact Except.ok.inj h ▸ isReadFrom_text

theorem exists_numeral_of_double? (h : double? cs = some x) (hx : x.isFinite = true) :
    ∃ n, Numeral.ofChars? cs = some n ∧ n.toDouble = x := by
  unfold double? at h
  extract_lets text unsigned at h
  split_ifs at h
  · rw [← Option.some.inj h, Double.isFinite_infinity] at hx
    exact absurd hx Bool.false_ne_true
  · rw [← Option.some.inj h, Double.isFinite_infinity] at hx
    exact absurd hx Bool.false_ne_true
  · rw [← Option.some.inj h] at hx
    exact absurd hx (by decide)
  · split at h
    · rename_i n hn
      split_ifs at h
      exact ⟨n, hn, Option.some.inj h⟩
    · exact nomatch h

/-- The text of a whole number is its spelling exactly when that has digits alone. -/
theorem integerText_eq_iff_of_scalar {n : Whole}
    (h : atomOfScalar tag .plain s = .ok (.int n)) :
    integerText n.val = s ↔ IsPlainInteger s.toList :=
  integerText_eq_iff ((isReadFrom_of_atomOfScalar h).int n rfl)

/-- The text of a short number is its spelling exactly when doubles have such a spelling. -/
theorem text_eq_iff_of_scalar (h : atomOfScalar tag .plain s = .ok (.float x))
    (hx : x.isFinite = true) (hshort : IsShortText s) :
    jsonLayout.text x = s ↔ IsStandardText s := by
  obtain ⟨n, hn, rfl⟩ := exists_numeral_of_double? ((isReadFrom_of_atomOfScalar h).float x rfl) hx
  exact text_toDouble_eq_iff hn hx hshort

end ApiManifest.Yaml
