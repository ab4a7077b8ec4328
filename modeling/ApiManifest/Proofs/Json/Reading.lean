import ApiManifest.Json.Reader
import ApiManifest.Proofs.Json.ReadBack
import ApiManifest.Proofs.Number.Layout
import ApiManifest.Proofs.Text.Hex

/-!
The text of a JSON value is read as that value, with the fields of objects as they stand
(`read?_chars`). Each character of a string is read from its escape (`stringBody?_escapedChar`), a
number up to what cannot go on with it (`number?_append`), and a collection part by part, whatever
stands behind it (`IsRead`). The reader's bound leaves two steps for each character.
-/

set_option autoImplicit false
set_option relaxedAutoImplicit false

namespace ApiManifest.Json

open Number

variable {c : Char} {cs rest tail : List Char} {bound : Nat} {v : Json}

/-! ### Strings -/

/-- The four digits of a small number. -/
theorem hexFixed_four (n : Nat) : Text.hexFixed Text.hexDigit 4 n =
    [Text.hexDigit (n / 16 / 16 / 16 % 16), Text.hexDigit (n / 16 / 16 % 16),
      Text.hexDigit (n / 16 % 16), Text.hexDigit (n % 16)] := rfl

/-- An escape by number stands for its character. -/
theorem escape?_numbered (hc : c < ' ') (rest : List Char) :
    escape? ('u' :: (Text.hexFixed Text.hexDigit 4 c.toNat ++ rest)) = some (c, rest) := by
  have hsmall : c.toNat < 32 := hc
  have hdigit (n : Nat) : n % 16 < 16 := Nat.mod_lt _ (by decide)
  have hvalue : ((c.toNat / 16 / 16 / 16 % 16 * 16 + c.toNat / 16 / 16 % 16) * 16 +
      c.toNat / 16 % 16) * 16 + c.toNat % 16 = c.toNat := by omega
  have hfour : hex4? (Text.hexFixed Text.hexDigit 4 c.toNat ++ rest) = some (c.toNat, rest) := by
    simp only [hexFixed_four, List.cons_append, List.nil_append, hex4?,
      Text.hexValue?_hexDigit (hdigit _), Option.bind_eq_bind, Option.bind_some, Option.pure_def,
      hvalue]
  rw [escape?, numberedEscape?, hfour]
  simp only [Option.bind_eq_bind, Option.bind_some]
  rw [if_neg (by omega), if_neg (by omega), Char.ofNat_toNat]
  rfl

/-- What stands behind the backslash of an escape is read as the character. -/
theorem escape?_of_escapedChar (hc : escapedChar c = '\\' :: tail) (rest : List Char) :
    escape? (tail ++ rest) = some (c, rest) := by
  unfold escapedChar at hc
  split at hc
  iterate 7
    obtain rfl := (List.cons.inj hc).2
    rfl
  · rename_i hbackslash _ _ _ _ _
    split_ifs at hc with hcontrol
    · obtain rfl := (List.cons.inj hc).2
      exact escape?_numbered hcontrol rest
    · exact absurd (List.cons.inj hc).1 hbackslash

/-- One character of a string is read. -/
theorem stringBody?_escapedChar (c : Char) (bound : Nat) (read rest : List Char) :
    stringBody? (bound + 1) read (escapedChar c ++ rest) = stringBody? bound (c :: read) rest := by
  have hescape {tail : List Char} (hc : escapedChar c = '\\' :: tail) :
      stringBody? (bound + 1) read (escapedChar c ++ rest) =
        stringBody? bound (c :: read) rest := by
    rw [hc, List.cons_append, stringBody?, if_neg (by decide), if_pos rfl,
      escape?_of_escapedChar hc rest]
  rcases escapedChar_cases c with
    ⟨heq, hquote, hslash, hcontrol⟩ | ⟨_, ⟨letter, heq, _⟩ | ⟨heq, _⟩⟩
  · rw [heq, List.singleton_append, stringBody?, if_neg hquote, if_neg hslash, if_neg hcontrol]
  · exact hescape heq
  · exact hescape heq

/-- A string is read to its closing quote. -/
theorem stringBody?_flatMap (cs : List Char) (hbound : cs.length < bound) (read rest : List Char) :
    stringBody? bound read (cs.flatMap escapedChar ++ '"' :: rest) =
      some (String.ofList (read.reverse ++ cs), rest) := by
  induction cs generalizing bound read with
  | nil =>
    obtain ⟨bound, rfl⟩ := Nat.exists_eq_succ_of_ne_zero (Nat.ne_of_gt hbound)
    rw [List.flatMap_nil, List.nil_append, stringBody?, if_pos rfl, List.append_nil]
  | cons c cs ih =>
    obtain ⟨bound, rfl⟩ := Nat.exists_eq_succ_of_ne_zero (Nat.ne_of_gt (Nat.zero_lt_of_lt hbound))
    rw [List.flatMap_cons, List.append_assoc, stringBody?_escapedChar,
      ih (Nat.lt_of_succ_lt_succ hbound), List.reverse_cons, List.append_assoc,
      List.singleton_append]

theorem stringChars_append (s : String) (rest : List Char) :
    stringChars s ++ rest = '"' :: (s.toList.flatMap escapedChar ++ '"' :: rest) := by
  rw [stringChars, List.cons_append, List.append_assoc, List.singleton_append]

/-- A string has fewer characters than its text. -/
theorem length_toList_lt (s : String) : s.toList.length + 1 < (stringChars s).length := by
  have hflat : s.toList.length ≤ (s.toList.flatMap escapedChar).length := by
    induction s.toList with
    | nil => exact le_rfl
    | cons c cs ih =>
      have hpos := length_escapedChar_pos c
      rw [List.flatMap_cons, List.length_append, List.length_cons]
      omega
  rw [stringChars, List.length_cons, List.length_append, List.length_singleton]
  omega

theorem stringBody?_string (s : String) (hbound : (stringChars s).length ≤ bound)
    (rest : List Char) :
    stringBody? bound [] (s.toList.flatMap escapedChar ++ '"' :: rest) = some (s, rest) := by
  have hlength := length_toList_lt s
  rw [stringBody?_flatMap s.toList (by omega), List.reverse_nil, List.nil_append,
    String.ofList_toList]

/-! ### Numbers -/

/-- Holds of what a number cannot go on with. -/
def EndsNumber (rest : List Char) : Prop :=
  ∀ c ∈ rest.head?, c.isDigit = false ∧ c ≠ '.' ∧ c ≠ 'e' ∧ c ≠ 'E'

/-- Holds of the doubles that the reader takes from their text. -/
def NumberReadsBack (x : FiniteDouble) : Prop :=
  number? (jsonLayout.text x.val).toList = some (.float x, [])

theorem EndsNumber.isDigit_head (hrest : EndsNumber rest) :
    ∀ c ∈ rest.head?, c.isDigit = false := fun c hc ↦ (hrest c hc).1

theorem EndsNumber.head_ne (hrest : EndsNumber rest) (hc : c = '.' ∨ c = 'e' ∨ c = 'E') :
    rest.head? ≠ some c := by
  intro hhead
  obtain ⟨-, hpoint, hmark, hcapital⟩ := hrest c hhead
  rcases hc with rfl | rfl | rfl
  · exact hpoint rfl
  · exact hmark rfl
  · exact hcapital rfl

/-- There is no fraction where no point stands. -/
theorem fractionPart?_of_head (h : cs.head? ≠ some '.') : fractionPart? cs = some (none, cs) := by
  unfold fractionPart?
  split
  · exact absurd rfl h
  · rfl

theorem fractionPart?_append {r : Option (List Char) × List Char} (h : fractionPart? cs = some r)
    (hrest : EndsNumber rest) : fractionPart? (cs ++ rest) = some (r.1, r.2 ++ rest) := by
  cases cs with
  | nil =>
    obtain rfl := Option.some.inj h
    exact fractionPart?_of_head (hrest.head_ne (.inl rfl))
  | cons c cs =>
    by_cases hpoint : c = '.'
    · subst hpoint
      rw [List.cons_append]
      simp only [fractionPart?, Numeral.splitDigits_append cs hrest.isDigit_head] at h ⊢
      split_ifs at h with hempty
      rw [if_neg hempty, ← Option.some.inj h]
    · have hhead : (c :: cs).head? ≠ some '.' := fun hc ↦ hpoint (Option.some.inj hc)
      rw [fractionPart?_of_head hhead] at h
      obtain rfl := Option.some.inj h
      exact fractionPart?_of_head hhead

theorem exponentDigits?_append {negative : Bool} {r : Option Int × List Char}
    (h : exponentDigits? negative cs = some r) (hrest : EndsNumber rest) :
    exponentDigits? negative (cs ++ rest) = some (r.1, r.2 ++ rest) := by
  simp only [exponentDigits?, Numeral.splitDigits_append cs hrest.isDigit_head] at h ⊢
  by_cases hempty : (Numeral.splitDigits cs).1.isEmpty = true
  · rw [if_pos hempty] at h
    exact absurd h (Option.some_ne_none r).symm
  · rw [if_neg hempty] at h ⊢
    rw [← Option.some.inj h]

/-- There is no exponent where no mark of one stands. -/
theorem exponentPart?_of_head (h : cs.head? ≠ some 'e') (h' : cs.head? ≠ some 'E') :
    exponentPart? cs = some (none, cs) := by
  cases cs with
  | nil => rfl
  | cons c cs =>
    rw [exponentPart?, if_neg]
    rintro (rfl | rfl)
    · exact h rfl
    · exact h' rfl

theorem splitSign_append (hne : cs ≠ []) (rest : List Char) :
    splitSign (cs ++ rest) = ((splitSign cs).1, (splitSign cs).2 ++ rest) := by
  cases cs with
  | nil => exact absurd rfl hne
  | cons c cs =>
    by_cases hminus : c = '-'
    · rw [hminus]
      rfl
    · by_cases hplus : c = '+'
      · rw [hplus]
        rfl
      · have hnone (tail : List Char) : splitSign (c :: tail) = (false, c :: tail) := by
          unfold splitSign
          split
          · exact absurd (List.cons.inj ‹_›).1 hminus
          · exact absurd (List.cons.inj ‹_›).1 hplus
          · rfl
        rw [List.cons_append, hnone, hnone, List.cons_append]

theorem exponentPart?_append {r : Option Int × List Char} (h : exponentPart? cs = some r)
    (hrest : EndsNumber rest) : exponentPart? (cs ++ rest) = some (r.1, r.2 ++ rest) := by
  cases cs with
  | nil =>
    obtain rfl := Option.some.inj h
    exact exponentPart?_of_head (hrest.head_ne (.inr (.inl rfl))) (hrest.head_ne (.inr (.inr rfl)))
  | cons c cs =>
    rw [List.cons_append]
    rw [exponentPart?] at h ⊢
    by_cases hmark : c = 'e' ∨ c = 'E'
    · rw [if_pos hmark] at h ⊢
      have hne : cs ≠ [] := by
        rintro rfl
        exact absurd h (by simp [splitSign, exponentDigits?, Numeral.splitDigits])
      rw [splitSign_append hne]
      exact exponentDigits?_append h hrest
    · rw [if_neg hmark] at h ⊢
      rw [← Option.some.inj h]
      rfl

theorem unsigned?_append {negative : Bool} {r : List Char} (h : unsigned? negative cs = some (v, r))
    (hrest : EndsNumber rest) : unsigned? negative (cs ++ rest) = some (v, r ++ rest) := by
  simp only [unsigned?, Numeral.splitDigits_append cs hrest.isDigit_head] at h ⊢
  by_cases hwhole : ((Numeral.splitDigits cs).1.isEmpty ||
      decide ((Numeral.splitDigits cs).1.length > 1) &&
        (Numeral.splitDigits cs).1.head? == some '0') = true
  · rw [if_pos hwhole] at h
    exact absurd h (Option.some_ne_none _).symm
  · rw [if_neg hwhole] at h ⊢
    obtain ⟨fraction, hfraction, h⟩ := Option.bind_eq_some_iff.mp h
    obtain ⟨exponent, hexponent, h⟩ := Option.bind_eq_some_iff.mp h
    obtain ⟨w, hw, h⟩ := Option.bind_eq_some_iff.mp h
    obtain ⟨rfl, rfl⟩ := Prod.mk.inj (Option.some.inj h)
    rw [fractionPart?_append hfraction hrest]
    simp only [Option.bind_eq_bind, Option.bind_some, exponentPart?_append hexponent hrest, hw]
    rfl

/-- A number without a minus sign. -/
theorem number?_of_head (h : cs.head? ≠ some '-') : number? cs = unsigned? false cs := by
  unfold number?
  split
  · exact absurd rfl h
  · rfl

/-- A number is read alike before what it cannot go on with. -/
theorem number?_append {r : List Char} (hne : cs ≠ []) (h : number? cs = some (v, r))
    (hrest : EndsNumber rest) : number? (cs ++ rest) = some (v, r ++ rest) := by
  cases cs with
  | nil => exact absurd rfl hne
  | cons c cs =>
    by_cases hminus : c = '-'
    · subst hminus
      exact unsigned?_append h hrest
    · have hhead (tail : List Char) : (c :: tail).head? ≠ some '-' :=
        fun hc ↦ hminus (Option.some.inj hc)
      rw [number?_of_head (hhead cs)] at h
      rw [List.cons_append, number?_of_head (hhead _)]
      exact unsigned?_append h hrest

/-- The digits of a number have no zero in front unless they are a zero alone. -/
theorem toDigits_whole (n : Nat) : ((Nat.toDigits 10 n).isEmpty ||
    decide ((Nat.toDigits 10 n).length > 1) && (Nat.toDigits 10 n).head? == some '0') = false := by
  by_cases hzero : n = 0
  · rw [hzero]
    rfl
  · have hhead := Yaml.head?_toDigits (Nat.pos_of_ne_zero hzero)
    rw [beq_eq_false_iff_ne.mpr hhead, Bool.and_false, Bool.or_false, List.isEmpty_eq_false_iff]
    exact Nat.toDigits_ne_nil

theorem unsigned?_toDigits {negative : Bool} {n : Nat}
    (h : numberOf? negative (Nat.toDigits 10 n) none none = some v) :
    unsigned? negative (Nat.toDigits 10 n) = some (v, []) := by
  simp only [unsigned?, Numeral.splitDigits_of_digits (Yaml.isDigit_toDigits n), toDigits_whole,
    Bool.false_eq_true, if_false, fractionPart?, exponentPart?, Option.bind_eq_bind,
    Option.bind_some, h]
  rfl

/-- A whole number in range is read from its digits, if it has a sign only when it is not zero. -/
theorem numberOf?_toDigits {negative : Bool} {n : Nat} (k : Whole)
    (hk : (if negative then -(n : Int) else n) = k.val) (hzero : negative = true → n ≠ 0) :
    numberOf? negative (Nat.toDigits 10 n) none none = some (.int k) := by
  have hsign : (negative && n == 0) = false := by
    by_cases hnegative : negative = true
    · rw [beq_eq_false_iff_ne.mpr (hzero hnegative), Bool.and_false]
    · rw [Bool.eq_false_iff.mpr hnegative, Bool.false_and]
  have hwhole : Whole.ofInt? k.val = some k := dif_pos ⟨k.low, k.high⟩
  simp only [numberOf?, natOfDigits_toDigits, hsign, hk, hwhole, Bool.false_eq_true, if_false]

/-- A whole number is read from its text. -/
theorem number?_integerText (n : Whole) :
    number? (integerText n.val).toList = some (.int n, []) := by
  cases hn : n.val with
  | ofNat k =>
    rw [integerText, String.toList_ofList, number?_of_head]
    · exact unsigned?_toDigits (numberOf?_toDigits n hn.symm fun h ↦ absurd h Bool.false_ne_true)
    · intro hhead
      have hmem := List.mem_of_head? hhead
      exact absurd (Yaml.isDigit_toDigits k '-' hmem) (by decide)
  | negSucc k =>
    rw [integerText, String.toList_ofList, number?]
    exact unsigned?_toDigits (numberOf?_toDigits n hn.symm fun _ ↦ Nat.succ_ne_zero k)

/-! ### Values -/

/-- Holds of a value that is read from its text in two steps for each character, up to what a number
cannot go on with. -/
def IsRead (v : Json) : Prop :=
  ∀ bound rest, 2 * (chars v).length ≤ bound → EndsNumber rest →
    value? bound (chars v ++ rest) = some (v, rest)

theorem skipBlanks_cons (hc : isWhite c = false) (cs : List Char) :
    skipBlanks (c :: cs) = c :: cs := by
  rw [skipBlanks, List.dropWhile_cons, hc]
  rfl

/-- What starts like a number is read as one. -/
theorem value?_of_numeric (hc : c.isDigit = true ∨ c = '-') (bound : Nat) (cs : List Char) :
    value? (bound + 1) (c :: cs) = number? (c :: cs) := by
  have hne (d : Char) (hd : ¬ (d.isDigit = true ∨ d = '-')) (tail : List Char) :
      c :: cs ≠ d :: tail := by
    intro heq
    rw [(List.cons.inj heq).1] at hc
    exact hd hc
  have hwhite : isWhite c = false := by
    rw [Bool.eq_false_iff]
    intro hwhite
    simp only [isWhite, Bool.or_eq_true, beq_iff_eq] at hwhite
    rcases hwhite with ((rfl | rfl) | rfl) | rfl
    all_goals exact absurd hc (by decide)
  rw [value?, skipBlanks_cons hwhite]
  split
  · exact absurd ‹_› (hne 'n' (by decide) _)
  · exact absurd ‹_› (hne 't' (by decide) _)
  · exact absurd ‹_› (hne 'f' (by decide) _)
  · exact absurd ‹_› (hne '"' (by decide) _)
  · exact absurd ‹_› (hne '[' (by decide) _)
  · exact absurd ‹_› (hne '\x7b' (by decide) _)
  · rfl

/-- A number that is read from its text is read with anything behind it that does not go on. -/
theorem value?_number (hstarts : ∃ c, cs.head? = some c ∧ (c.isDigit = true ∨ c = '-'))
    (h : number? cs = some (v, [])) (hbound : 0 < bound) (hrest : EndsNumber rest) :
    value? bound (cs ++ rest) = some (v, rest) := by
  obtain ⟨c, hhead, hc⟩ := hstarts
  obtain ⟨tail, rfl⟩ := List.head?_eq_some_iff.mp hhead
  obtain ⟨bound, rfl⟩ := Nat.exists_eq_succ_of_ne_zero (Nat.ne_of_gt hbound)
  have hread := number?_append (List.cons_ne_nil c tail) h hrest
  rw [List.nil_append] at hread
  rw [← hread, List.cons_append]
  exact value?_of_numeric hc bound (tail ++ rest)

theorem exists_head_integerText (n : Int) :
    ∃ c, (integerText n).toList.head? = some c ∧ (c.isDigit = true ∨ c = '-') := by
  obtain ⟨hne, _⟩ := Yaml.isNumeric_integerText n
  obtain ⟨c, hc⟩ := Option.isSome_iff_exists.mp (List.isSome_head?.mpr hne)
  exact ⟨c, hc, isDigit_of_mem_integerText (List.mem_of_head? hc)⟩

theorem exists_head_floatText (x : FiniteDouble) :
    ∃ c, (jsonLayout.text x.val).toList.head? = some c ∧ (c.isDigit = true ∨ c = '-') := by
  obtain ⟨sign, ds, mark, tail, h⟩ := exists_toList_text jsonLayout x.finite
  rw [h.eq]
  rcases h.sign with rfl | rfl
  · obtain ⟨d, rest, hds⟩ := List.exists_cons_of_ne_nil h.nonempty
    rw [hds]
    exact ⟨d, rfl, .inl (h.digits d (hds ▸ List.mem_cons_self))⟩
  · exact ⟨'-', rfl, .inr rfl⟩

/-- A number or a word is read. -/
theorem isRead_plain (hv : IsPlain v) (hfloats : ∀ x ∈ floats v, NumberReadsBack x) : IsRead v := by
  intro bound rest hbound hrest
  have hpos : 0 < bound := by
    have hlength := List.length_pos_of_ne_nil (isBare_chars hv).1
    omega
  cases v with
  | int n => exact value?_number (exists_head_integerText n.val) (number?_integerText n) hpos hrest
  | float x =>
    exact value?_number (exists_head_floatText x) (hfloats x List.mem_cons_self) hpos hrest
  | null =>
    obtain ⟨bound, rfl⟩ := Nat.exists_eq_succ_of_ne_zero (Nat.ne_of_gt hpos)
    rfl
  | bool b =>
    obtain ⟨bound, rfl⟩ := Nat.exists_eq_succ_of_ne_zero (Nat.ne_of_gt hpos)
    cases b <;> rfl
  | str _ => exact hv.elim
  | arr _ => exact hv.elim
  | obj _ => exact hv.elim

/-- A string is read. -/
theorem isRead_str (s : String) : IsRead (.str s) := by
  intro bound rest hbound _
  rw [chars] at hbound ⊢
  have hlength := length_toList_lt s
  obtain ⟨bound, rfl⟩ : ∃ b, bound = b + 1 := ⟨bound - 1, by omega⟩
  rw [stringChars_append, value?, skipBlanks_cons (by decide)]
  simp only
  rw [stringBody?_string s (by omega)]
  rfl

/-- The text of a value starts with a token, and not with a closing bracket. -/
theorem exists_chars_cons (v : Json) :
    ∃ c tail, chars v = c :: tail ∧ isWhite c = false ∧ c ≠ ']' := by
  have hplain (hv : IsPlain v) : ∃ c tail, chars v = c :: tail ∧ isWhite c = false ∧ c ≠ ']' := by
    obtain ⟨hne, hbare⟩ := isBare_chars hv
    obtain ⟨c, tail, heq⟩ := List.exists_cons_of_ne_nil hne
    have hc := hbare c (heq ▸ List.mem_cons_self)
    refine ⟨c, tail, heq, ?_, isBare_ne hc (by decide)⟩
    simp only [isWhite, Bool.or_eq_false_iff, beq_eq_false_iff_ne]
    exact ⟨⟨⟨isBare_ne hc (by decide), isBare_ne hc (by decide)⟩, isBare_ne hc (by decide)⟩,
      isBare_ne hc (by decide)⟩
  cases v with
  | str s => exact ⟨'"', _, rfl, by decide, by decide⟩
  | arr items => exact ⟨'[', _, rfl, by decide, by decide⟩
  | obj fields => exact ⟨'\x7b', _, rfl, by decide, by decide⟩
  | _ => exact hplain trivial

theorem endsNumber_cons (hc : c.isDigit = false ∧ c ≠ '.' ∧ c ≠ 'e' ∧ c ≠ 'E') (cs : List Char) :
    EndsNumber (c :: cs) := by
  intro d hd
  rw [← Option.some.inj hd]
  exact hc

theorem moreItemChars_cons (v : Json) (others : List Json) :
    moreItemChars (v :: others) = ',' :: itemChars (v :: others) := rfl

theorem moreFieldChars_cons (f : String × Json) (others : List (String × Json)) :
    moreFieldChars (f :: others) = ',' :: fieldChars (f :: others) := rfl

/-- The items of an array are read when each of them is. -/
theorem items?_itemChars {first : Json} {others : List Json} (hfirst : IsRead first)
    (hothers : ∀ v ∈ others, IsRead v) (read : List Json) (rest : List Char) (bound : Nat)
    (hbound : 2 * (itemChars (first :: others)).length < bound) :
    items? bound read (itemChars (first :: others) ++ rest) =
      some (.arr (read.reverse ++ first :: others), rest) := by
  induction others generalizing first read bound with
  | nil =>
    rw [itemChars, moreItemChars, List.length_append, List.length_singleton] at hbound
    obtain ⟨bound, rfl⟩ : ∃ b, bound = b + 1 := ⟨bound - 1, by omega⟩
    have hvalue := hfirst bound (']' :: rest) (by omega) (endsNumber_cons (by decide) rest)
    rw [itemChars, moreItemChars, List.append_assoc, List.singleton_append, items?, hvalue]
    simp only [skipBlanks_cons (c := ']') (by decide), List.reverse_cons]
  | cons second others ih =>
    rw [itemChars, moreItemChars_cons, List.length_append, List.length_cons] at hbound
    obtain ⟨bound, rfl⟩ : ∃ b, bound = b + 1 := ⟨bound - 1, by omega⟩
    have hvalue := hfirst bound (',' :: (itemChars (second :: others) ++ rest)) (by omega)
      (endsNumber_cons (by decide) _)
    have hmore := ih (hothers second List.mem_cons_self)
      (fun v hv ↦ hothers v (List.mem_cons_of_mem second hv)) (first :: read) bound (by omega)
    rw [itemChars, moreItemChars_cons, List.append_assoc, List.cons_append, items?, hvalue]
    simp only [skipBlanks_cons (c := ',') (by decide)]
    rw [hmore, List.reverse_cons, List.append_assoc, List.singleton_append]

theorem isRead_arr {items : List Json} (hitems : ∀ v ∈ items, IsRead v) : IsRead (.arr items) := by
  intro bound rest hbound _
  rw [chars, List.length_cons] at hbound
  obtain ⟨bound, rfl⟩ : ∃ b, bound = b + 1 := ⟨bound - 1, by omega⟩
  rw [chars, List.cons_append, value?, skipBlanks_cons (by decide)]
  cases items with
  | nil =>
    simp only [itemChars, List.singleton_append, skipBlanks_cons (c := ']') (by decide)]
  | cons first others =>
    have hread := items?_itemChars (hitems first List.mem_cons_self)
      (fun v hv ↦ hitems v (List.mem_cons_of_mem first hv)) [] rest bound (by omega)
    obtain ⟨c, tail, heq, hwhite, hbracket⟩ := exists_chars_cons first
    rw [itemChars, heq, List.cons_append, List.cons_append] at hread ⊢
    simp only [skipBlanks_cons hwhite]
    split
    · exact absurd (List.cons.inj ‹_›).1 hbracket
    · exact hread

theorem fieldChars_cons (f : String × Json) (others : List (String × Json)) (rest : List Char) :
    fieldChars (f :: others) ++ rest =
      stringChars f.1 ++ ':' :: (chars f.2 ++ (moreFieldChars others ++ rest)) := by
  rw [fieldChars, List.append_assoc, List.cons_append, List.append_assoc]

/-- The fields of an object are read in their order when each value is. -/
theorem fields?_fieldChars {first : String × Json} {others : List (String × Json)}
    (hfirst : IsRead first.2) (hothers : ∀ f ∈ others, IsRead f.2) (read : List (String × Json))
    (rest : List Char) (bound : Nat)
    (hbound : 2 * (fieldChars (first :: others)).length < bound) :
    fields? bound read (fieldChars (first :: others) ++ rest) =
      some (.obj (read.reverse ++ first :: others), rest) := by
  induction others generalizing first read bound with
  | nil =>
    rw [← List.append_nil (fieldChars _), fieldChars_cons, List.length_append, List.length_cons,
      List.length_append] at hbound
    obtain ⟨bound, rfl⟩ : ∃ b, bound = b + 1 := ⟨bound - 1, by omega⟩
    have hvalue := hfirst bound ('\x7d' :: rest) (by omega) (endsNumber_cons (by decide) rest)
    rw [fieldChars_cons, stringChars_append, fields?, skipBlanks_cons (by decide)]
    simp only
    rw [stringBody?_string first.1 (by omega)]
    simp only [skipBlanks_cons (c := ':') (by decide)]
    rw [moreFieldChars, List.singleton_append, hvalue]
    simp only [skipBlanks_cons (c := '\x7d') (by decide), List.reverse_cons]
  | cons second others ih =>
    rw [← List.append_nil (fieldChars _), fieldChars_cons, List.length_append, List.length_cons,
      List.length_append, moreFieldChars_cons, List.append_nil, List.length_cons] at hbound
    obtain ⟨bound, rfl⟩ : ∃ b, bound = b + 1 := ⟨bound - 1, by omega⟩
    have hvalue := hfirst bound (',' :: (fieldChars (second :: others) ++ rest)) (by omega)
      (endsNumber_cons (by decide) _)
    have hmore := ih (hothers second List.mem_cons_self)
      (fun v hv ↦ hothers v (List.mem_cons_of_mem second hv)) (first :: read) bound (by omega)
    rw [fieldChars_cons, stringChars_append, fields?, skipBlanks_cons (by decide)]
    simp only
    rw [stringBody?_string first.1 (by omega)]
    simp only [skipBlanks_cons (c := ':') (by decide)]
    rw [moreFieldChars_cons, List.cons_append, hvalue]
    simp only [skipBlanks_cons (c := ',') (by decide)]
    rw [hmore, List.reverse_cons, List.append_assoc, List.singleton_append]

theorem isRead_obj {fields : List (String × Json)} (hfields : ∀ f ∈ fields, IsRead f.2) :
    IsRead (.obj fields) := by
  intro bound rest hbound _
  rw [chars, List.length_cons] at hbound
  obtain ⟨bound, rfl⟩ : ∃ b, bound = b + 1 := ⟨bound - 1, by omega⟩
  rw [chars, List.cons_append, value?, skipBlanks_cons (by decide)]
  cases fields with
  | nil =>
    simp only [fieldChars, List.singleton_append, skipBlanks_cons (c := '\x7d') (by decide)]
  | cons first others =>
    have hread := fields?_fieldChars (hfields first List.mem_cons_self)
      (fun f hf ↦ hfields f (List.mem_cons_of_mem first hf)) [] rest bound (by omega)
    rw [fieldChars_cons, stringChars_append] at hread ⊢
    simp only [skipBlanks_cons (c := '"') (by decide)]
    exact hread

/-- Every value whose doubles are read back is read. -/
theorem isRead (v : Json) (hfloats : ∀ x ∈ floats v, NumberReadsBack x) : IsRead v := by
  induction v using inductionOnParts with
  | plain v hv => exact isRead_plain hv hfloats
  | str s => exact isRead_str s
  | arr items ih =>
    rw [floats, itemFloats_eq] at hfloats
    exact isRead_arr fun v hv ↦ ih v hv fun x hx ↦ hfloats x (List.mem_flatMap.mpr ⟨v, hv, hx⟩)
  | obj fields ih =>
    rw [floats, fieldFloats_eq] at hfloats
    exact isRead_obj fun f hf ↦ ih f hf fun x hx ↦ hfloats x (List.mem_flatMap.mpr ⟨f, hf, hx⟩)

/-- The text of a value is read as it stands. -/
theorem read?_chars (hfloats : ∀ x ∈ floats v, NumberReadsBack x) :
    read? (String.ofList (chars v)) = some v := by
  have hread := isRead v hfloats (2 * (chars v).length + 2) [] (by omega)
    (fun c hc ↦ absurd hc (by simp))
  rw [List.append_nil] at hread
  rw [read?, String.toList_ofList, hread]
  rfl

end ApiManifest.Json
