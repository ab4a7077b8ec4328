import ApiManifest.Yaml.Resolve
import Mathlib.Data.Bool.AllAny
import Mathlib.Data.List.Basic
import Mathlib.Data.Nat.Basic
import Mathlib.Tactic.Common

/-!
Whole numbers are read back from their text. The text is made of digits, the first of them no zero
unless it is the only one, so that no reader takes it for a word, for another base or for text with
a zero in front (`atomOfPlain_integerText`).
-/

set_option autoImplicit false
set_option relaxedAutoImplicit false

namespace ApiManifest.Yaml

open Number

/-- The first digit of a number other than zero is no zero. -/
theorem head?_toDigits {n : Nat} (hn : 0 < n) : (Nat.toDigits 10 n).head? ≠ some '0' := by
  induction n using Nat.strongRecOn with
  | ind n ih =>
    rcases Nat.lt_or_ge n 10 with hlt | hge
    · rw [Nat.toDigits_of_lt_base hlt, List.head?_cons, ne_eq, Option.some_inj,
        Nat.digitChar_eq_zero]
      exact Nat.pos_iff_ne_zero.mp hn
    · rw [Nat.toDigits_of_base_le (by decide) hge,
        List.head?_append_of_ne_nil _ Nat.toDigits_ne_nil]
      exact ih (n / 10) (by omega) (by omega)

theorem isDigit_toDigits (n : Nat) : ∀ c ∈ Nat.toDigits 10 n, c.isDigit = true :=
  fun _ hc ↦ Nat.isDigit_of_mem_toDigits (by decide) (by decide) hc

theorem hexValue?_of_isDigit {c : Char} (hc : c.isDigit = true) :
    Text.hexValue? c = some (c.toNat - 48) ∧ c.toNat - 48 < 10 := by
  have hrange : '0' ≤ c ∧ c ≤ '9' := by
    rw [Char.isDigit, Bool.and_eq_true, decide_eq_true_eq, decide_eq_true_eq] at hc
    exact hc
  refine ⟨if_pos hrange, ?_⟩
  have hhigh : c.toNat ≤ 57 := hrange.2
  omega

/-- Digits are read as the number that they spell. -/
theorem natInBase?_digits {ds : List Char} (hne : ds ≠ []) (hds : ∀ c ∈ ds, c.isDigit = true) :
    natInBase? 10 ds = some (Nat.ofDigitChars 10 ds 0) := by
  have hfold (init : Nat) : ds.foldlM (fun n c => do
      let d ← Text.hexValue? c
      if d < 10 then some (10 * n + d) else none) init = some (Nat.ofDigitChars 10 ds init) := by
    clear hne
    induction ds generalizing init with
    | nil => rfl
    | cons c ds ih =>
      obtain ⟨hvalue, hbound⟩ := hexValue?_of_isDigit (hds c List.mem_cons_self)
      have hstep : (do
          let d ← Text.hexValue? c
          if d < 10 then some (10 * init + d) else none) = some (10 * init + (c.toNat - 48)) := by
        simp [hvalue, hbound]
      rw [List.foldlM_cons, hstep]
      exact ih (fun d hd ↦ hds d (List.mem_cons_of_mem c hd)) _
  rw [natInBase?, if_neg (by simpa using hne), hfold]

/-- Digits announce no other base. -/
theorem magnitude?_digits {ds : List Char} (hne : ds ≠ []) (hds : ∀ c ∈ ds, c.isDigit = true) :
    magnitude? ds = some (Nat.ofDigitChars 10 ds 0) := by
  have hletter (c : Char) (cs : List Char) (hc : c.isDigit = false) : ds ≠ '0' :: c :: cs := by
    rintro rfl
    rw [hds c (List.mem_cons_of_mem _ List.mem_cons_self)] at hc
    exact Bool.noConfusion hc
  rw [magnitude?.eq_4 ds (fun cs ↦ hletter 'x' cs rfl) (fun cs ↦ hletter 'o' cs rfl)
    (fun cs ↦ hletter 'b' cs rfl), natInBase?_digits hne hds]

theorem magnitude?_toDigits (n : Nat) : magnitude? (Nat.toDigits 10 n) = some n := by
  rw [magnitude?_digits Nat.toDigits_ne_nil (isDigit_toDigits n), Nat.ofDigitChars_ten_toDigits]

/-- A text that starts with a digit has no sign. -/
theorem toDigits_ne_cons (n : Nat) {c : Char} (hc : c.isDigit = false) (cs : List Char) :
    Nat.toDigits 10 n ≠ c :: cs := by
  intro h
  rw [isDigit_toDigits n c (h ▸ List.mem_cons_self)] at hc
  exact Bool.noConfusion hc

theorem dropSign_toDigits (n : Nat) : dropSign (Nat.toDigits 10 n) = Nat.toDigits 10 n :=
  dropSign.eq_3 _ (toDigits_ne_cons n rfl) (toDigits_ne_cons n rfl)

/-- The digits of a number have no zero in front. -/
theorem hasLeadingZero_of_dropSign {cs : List Char} {n : Nat}
    (hcs : dropSign cs = Nat.toDigits 10 n) : hasLeadingZero cs = false := by
  rw [hasLeadingZero, hcs]
  split
  · rename_i hn
    rcases Nat.eq_zero_or_pos n with rfl | hpos
    · rw [Nat.toDigits_zero] at hn
      exact absurd (List.cons.inj hn).2.symm (List.cons_ne_nil _ _)
    · exact absurd (congrArg List.head? hn) (head?_toDigits hpos)
  · rfl

theorem integer?_integerText (n : Int) : integer? (integerText n).toList = some n := by
  cases n with
  | ofNat n =>
    rw [integerText, String.toList_ofList, integer?,
      hasLeadingZero_of_dropSign (dropSign_toDigits n), magnitude?_toDigits]
    · rfl
    · exact toDigits_ne_cons n rfl
    · exact toDigits_ne_cons n rfl
  | negSucc n =>
    have hzero : hasLeadingZero ('-' :: Nat.toDigits 10 (n + 1)) = false :=
      hasLeadingZero_of_dropSign (n := n + 1) rfl
    rw [integerText, String.toList_ofList, integer?, hzero, magnitude?_toDigits]
    rfl

/-- Holds of the characters in the text of a number. -/
def IsNumeric (c : Char) : Prop := c.isDigit = true ∨ c = '-' ∨ c = '+' ∨ c = '.' ∨ c = 'e'

instance (c : Char) : Decidable (IsNumeric c) := inferInstanceAs (Decidable (_ ∨ _))

/-- A text of such characters is none of the words for null and the truth values. -/
theorem not_word_of_numeric {s : String} (hs : ∀ c ∈ s.toList, IsNumeric c) :
    isNullWord s = false ∧ boolOfWord? s = none := by
  have hword (w : String) (hw : w.toList.all (fun c ↦ decide (IsNumeric c)) = false) :
      (s == w) = false := by
    refine beq_eq_false_iff_ne.mpr ?_
    rintro rfl
    exact absurd (List.all_iff_forall_prop.mpr hs) (by rw [hw]; exact Bool.false_ne_true)
  rw [isNullWord, boolOfWord?, hword "null" (by decide), hword "Null" (by decide),
    hword "NULL" (by decide), hword "~" (by decide), hword "true" (by decide),
    hword "True" (by decide), hword "TRUE" (by decide), hword "false" (by decide),
    hword "False" (by decide), hword "FALSE" (by decide)]
  exact ⟨rfl, rfl⟩

theorem isNumeric_integerText (n : Int) :
    (integerText n).toList ≠ [] ∧ ∀ c ∈ (integerText n).toList, IsNumeric c := by
  cases n with
  | ofNat n =>
    rw [integerText, String.toList_ofList]
    exact ⟨Nat.toDigits_ne_nil, fun c hc ↦ .inl (isDigit_toDigits n c hc)⟩
  | negSucc n =>
    rw [integerText, String.toList_ofList]
    refine ⟨List.cons_ne_nil _ _, fun c hc ↦ ?_⟩
    rcases List.mem_cons.mp hc with rfl | hc
    · exact .inr (.inl rfl)
    · exact .inl (isDigit_toDigits _ c hc)

/-- A whole number in range is read back from its text. -/
theorem atomOfPlain_integerText (n : Whole) : atomOfPlain (integerText n.val) = .int n := by
  obtain ⟨hne, hnumeric⟩ := isNumeric_integerText n.val
  obtain ⟨hnull, hbool⟩ := not_word_of_numeric hnumeric
  have hempty : (integerText n.val).isEmpty = false := by
    rw [Bool.eq_false_iff, ne_eq, String.isEmpty_iff]
    rintro h
    exact hne (by rw [h]; rfl)
  have hatom : atomOfInteger? n.val = some (.int n) := by
    rw [atomOfInteger?, Whole.ofInt?, dif_pos ⟨n.low, n.high⟩]
  rw [atomOfPlain, hempty, hnull, hbool, integer?_integerText, Option.bind_some, hatom]
  rfl

end ApiManifest.Yaml
