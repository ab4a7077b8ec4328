import ApiManifest.Proofs.Yaml.DoubleQuoted
import ApiManifest.Proofs.Yaml.Style

/-!
Written double-quoted scalars. Between double quotes a writer shows no end of a line, so that all of
the text is on one line, and every character that it does not show is an escape
(`doubleChar_cases`); the reader takes it for the text that was written (`doubleQuoted_written`).
-/

set_option autoImplicit false
set_option relaxedAutoImplicit false

namespace ApiManifest.Text

theorem isShown_hexDigitUpper {d : Nat} (hd : d < 16) :
    Yaml.isShown (hexDigitUpper d) = true ∧ Yaml.isBreak (hexDigitUpper d) = false := by
  interval_cases d <;> exact ⟨rfl, rfl⟩

theorem isShown_hexFixed {width n : Nat} {c : Char} (hc : c ∈ hexFixed hexDigitUpper width n) :
    Yaml.isShown c = true ∧ Yaml.isBreak c = false := by
  induction width generalizing n with
  | zero => exact absurd hc List.not_mem_nil
  | succ width ih =>
    rw [hexFixed, List.mem_append, List.mem_singleton] at hc
    rcases hc with hc | rfl
    · exact ih hc
    · exact isShown_hexDigitUpper (Nat.mod_lt _ (by decide))

end ApiManifest.Text

namespace ApiManifest.Yaml

/-- How a character stands between double quotes: as it is, by a letter, or by its number. -/
theorem doubleChar_cases (c : Char) :
    (doubleChar c = [c] ∧ isShown c = true ∧ endsLine c = false ∧ c ≠ '"' ∧ c ≠ '\\') ∨
      (∃ letter, doubleChar c = ['\\', letter] ∧ (isShown letter = true ∧ isBreak letter = false) ∧
        shortEscape? letter = some c) ∨
      ∃ letter width, doubleChar c =
          '\\' :: letter :: Text.hexFixed Text.hexDigitUpper (width + 1) c.toNat ∧
        (isShown letter = true ∧ isBreak letter = false) ∧ escapeWidth? letter = some (width + 1) ∧
          shortEscape? letter = none ∧ c.toNat < 16 ^ (width + 1) := by
  have hvalid : c.toNat < 0xD800 ∨ 0xDFFF < c.toNat ∧ c.toNat < 0x110000 := c.valid
  by_cases hraw : (isShown c && !endsLine c && c != '"' && c != '\\') = true
  · refine .inl ⟨if_pos hraw, ?_⟩
    simpa [and_assoc] using hraw
  · refine .inr ?_
    obtain ⟨written, hwritten⟩ : ∃ written, doubleChar c = written := ⟨_, rfl⟩
    rw [hwritten]
    unfold doubleChar at hwritten
    rw [if_neg hraw] at hwritten
    split at hwritten
    case h_16 =>
      refine .inr ?_
      subst hwritten
      simp only
      split_ifs with hone htwo
      · exact ⟨'x', 1, rfl, ⟨rfl, rfl⟩, rfl, rfl, by omega⟩
      · exact ⟨'u', 3, rfl, ⟨rfl, rfl⟩, rfl, rfl, by omega⟩
      · exact ⟨'U', 7, rfl, ⟨rfl, rfl⟩, rfl, rfl, by omega⟩
    all_goals exact .inl ⟨_, hwritten.symm, ⟨rfl, rfl⟩, rfl⟩

/-- Between double quotes all characters are shown and no line ends. -/
theorem isShown_doubleChar {c d : Char} (hd : d ∈ doubleChar c) :
    isShown d = true ∧ isBreak d = false := by
  obtain ⟨hc, hshown, hends, _, _⟩ | ⟨letter, hc, hletter, _⟩ | ⟨letter, width, hc, hletter, _⟩ :=
    doubleChar_cases c
  · rw [hc, List.mem_singleton] at hd
    rw [hd]
    exact ⟨hshown, by rw [← endsLine_of_isShown hshown, hends]⟩
  · rw [hc, List.mem_pair] at hd
    rcases hd with rfl | rfl
    · exact ⟨rfl, rfl⟩
    · exact hletter
  · rw [hc, List.mem_cons, List.mem_cons] at hd
    rcases hd with rfl | rfl | hd
    · exact ⟨rfl, rfl⟩
    · exact hletter
    · exact Text.isShown_hexFixed hd

/-- A reader takes the characters between double quotes for the text that was written. Spaces wait
in the gap until something else follows them. -/
theorem doubleQuoted_chars (cs passed read rest : List Char) (p : Spot) (hp : p.column ≠ 0) :
    doubleQuoted read (.blanks passed) .between (place p (cs.flatMap doubleChar ++ '"' :: rest)) =
      .ok ((passed ++ read).reverse ++ cs,
        place (p.past (cs.flatMap doubleChar ++ ['"'])) rest) := by
  induction cs generalizing passed read p with
  | nil =>
    rw [List.flatMap_nil, List.nil_append, doubleQuoted_quote, List.append_nil]
    rfl
  | cons c cs ih =>
    have hcolumn : (p.past (doubleChar c)).column ≠ 0 := by
      rw [p.past_of_line fun d hd ↦ (isShown_doubleChar hd).2]
      simp only
      omega
    have htail := ih [] (c :: (passed ++ read)) (p.past (doubleChar c)) hcolumn
    rw [List.flatMap_cons, List.append_assoc, List.append_assoc, Spot.past_append]
    obtain ⟨hc, hshown, hends, hquote, hescape⟩ | ⟨letter, hc, hletter, hshort⟩ |
      ⟨letter, width, hc, hletter, hwidth, hnone, hlt⟩ := doubleChar_cases c
    · have hbreak : isBreak c = false := by rw [← endsLine_of_isShown hshown, hends]
      rw [hc] at htail hcolumn ⊢
      by_cases hspace : c = ' '
      · subst hspace
        have hblank := ih (' ' :: passed) read (p.past [' ']) hcolumn
        rw [List.singleton_append, doubleQuoted_blank rfl]
        rw [Spot.past_cons, Spot.past_nil] at hblank ⊢
        rw [Gap.addBlank, hblank]
        simp
      · have hblank : isBlank c = false := by
          rw [isBlank_of_isShown hshown, beq_eq_false_iff_ne.mpr hspace]
        rw [List.singleton_append, doubleQuoted_char hbreak hblank
          (documentMarkAhead_off_margin hp _)
          hquote hescape]
        rw [Spot.past_cons, Spot.past_nil] at htail ⊢
        rw [Gap.empty, Gap.flush, htail]
        simp
    · rw [hc] at htail ⊢
      rw [List.cons_append, List.singleton_append, doubleQuoted_short hletter.2 hshort, Gap.empty,
        Gap.flush, htail]
      simp
    · rw [hc] at htail ⊢
      rw [List.cons_append, List.cons_append,
        doubleQuoted_numbered (fun d hd ↦ Text.hexValue?_hexDigitUpper hd) hwidth hnone hletter.2
          hlt,
        Gap.empty, Gap.flush, htail]
      simp

/-- A double-quoted scalar is read as the text that was written. -/
theorem doubleQuoted_written (cs rest : List Char) (p : Spot) (hp : p.column ≠ 0) :
    doubleQuoted [] .empty .between (place p (cs.flatMap doubleChar ++ '"' :: rest)) =
      .ok (cs, place (p.past (cs.flatMap doubleChar ++ ['"'])) rest) :=
  doubleQuoted_chars cs [] [] rest p hp

end ApiManifest.Yaml
