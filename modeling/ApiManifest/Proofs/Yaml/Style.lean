import ApiManifest.Proofs.Yaml.Places
import ApiManifest.Yaml.Writer

/-!
The characters that a writer shows as they are, under a reader. No carriage return, no tab and no
U+0085 is among them, so that a reader takes for blanks and breaks exactly what the writer takes for
spaces and ends of lines.
-/

set_option autoImplicit false
set_option relaxedAutoImplicit false

namespace ApiManifest.Yaml

variable {c : Char}

theorem isAllowed_of_isShown (hc : isShown c = true) : isAllowed c = true := by
  simp only [isShown, isAllowed, Bool.or_eq_true, Bool.and_eq_true, beq_iff_eq, bne_iff_ne,
    decide_eq_true_eq] at hc ⊢
  omega

theorem isBlank_of_isShown (hc : isShown c = true) : isBlank c = (c == ' ') := by
  have htab : c ≠ '\t' := by
    rintro rfl
    exact absurd hc (by decide)
  rw [isBlank, beq_eq_false_iff_ne.mpr htab, Bool.or_false]

theorem endsLine_of_isShown (hc : isShown c = true) : endsLine c = isBreak c := by
  have hreturn : c ≠ '\r' := by
    rintro rfl
    exact absurd hc (by decide)
  have hnext : c ≠ '\u0085' := by
    rintro rfl
    exact absurd hc (by decide)
  rw [endsLine, isBreak, beq_eq_false_iff_ne.mpr hreturn, beq_eq_false_iff_ne.mpr hnext,
    Bool.false_or, Bool.or_false]

/-- What ends no line for any reader is no break. -/
theorem isBreak_of_not_endsLine (hc : endsLine c = false) : isBreak c = false := by
  simp only [endsLine, isBreak, Bool.or_eq_false_iff] at hc ⊢
  exact ⟨⟨hc.1.1.1.2, hc.1.2⟩, hc.2⟩

theorem isShown_space : isShown ' ' = true := rfl

@[simp] theorem length_spaces (n : Nat) : (spaces n).length = n := List.length_replicate

theorem mem_spaces {n : Nat} (hc : c ∈ spaces n) : c = ' ' := List.eq_of_mem_replicate hc

theorem past_spaces (p : Spot) (n : Nat) : p.past (spaces n) = ⟨p.line, p.column + n⟩ := by
  rw [p.past_of_line fun c hc ↦ by rw [mem_spaces hc]; rfl, length_spaces]

/-- The indentation of a line that follows a break. -/
def indentation (width : Nat) (afterBreak : Bool) : List Char :=
  if afterBreak then spaces width else []

/-- What the choice of a style takes for granted of a text. -/
theorem writtenStyle_cases (s : String) :
    (writtenStyle s = .literal ∧ s.toList ≠ [] ∧ ∀ c ∈ s.toList, isShown c = true) ∨
      writtenStyle s = .double ∨
        (writtenStyle s = .plain ∧ s.toList ≠ [] ∧ plainAllowed s.toList = true) ∨
          (writtenStyle s = .single ∧ '\n' ∉ s.toList ∧ singleAllowed s.toList = true) := by
  obtain ⟨style, hstyle⟩ : ∃ style, writtenStyle s = style := ⟨_, rfl⟩
  rw [hstyle]
  unfold writtenStyle at hstyle
  simp only at hstyle
  split_ifs at hstyle with hfeed hliteral hplain hsingle
  · refine .inl ⟨hstyle.symm, ?_, ?_⟩
    · intro h
      rw [h] at hfeed
      exact absurd hfeed (by decide)
    · simp only [literalAllowed, Bool.and_eq_true] at hliteral
      exact List.all_eq_true.mp hliteral.1.1
  · exact .inr (.inl hstyle.symm)
  · rw [Bool.and_eq_true] at hplain
    refine .inr (.inr (.inl ⟨hstyle.symm, ?_, hplain.2⟩))
    intro h
    have hempty : s = "" := String.toList_inj.mp h
    rw [hempty] at hplain
    exact absurd hplain.1 (by decide)
  · refine .inr (.inr (.inr ⟨hstyle.symm, ?_, hsingle⟩))
    simpa using hfeed
  · exact .inr (.inl hstyle.symm)

end ApiManifest.Yaml
