import ApiManifest.Yaml.Scalar.Gap
import Mathlib.Data.List.Basic

/-!
Gaps that fold nothing. A gap of spaces alone, or of breaks alone the first of which is no line
feed, stands for just what it holds; `GapAfter` says that a reader has such a gap before it, given
the last character that it read.
-/

set_option autoImplicit false
set_option relaxedAutoImplicit false

namespace ApiManifest.Yaml

/-- A gap that starts with another break than a line feed stands for all of its breaks. -/
theorem flush_broken {c : Char} (hc : c ≠ '\n') (more read : List Char) :
    (Gap.broken (some c) more).flush read = more ++ c :: read := by
  unfold Gap.flush
  split <;> simp_all

/-- What a gap holds after the given character: blanks that are none unless it is a space, or breaks
the first of which is no line feed. -/
def GapAfter (before : Char) : Gap → Prop
  | .blanks passed => isBreak before = false ∧ (before ≠ ' ' → passed = [])
  | .broken none _ => False
  | .broken (some b) _ => isBreak before = true ∧ b ≠ '\n'

variable {before c : Char} {gap : Gap}

theorem GapAfter.isBroken (hgap : GapAfter before gap) : gap.isBroken = isBreak before := by
  rcases gap with passed | ⟨_ | b, more⟩
  · exact hgap.1.symm
  · exact hgap.elim
  · exact hgap.1.symm

/-- A space that follows no break adds itself to the gap. -/
theorem GapAfter.addBlank (hgap : GapAfter before gap) (hbefore : isBreak before = false) :
    GapAfter ' ' (gap.addBlank ' ') ∧
      ∀ read, (gap.addBlank ' ').flush read = ' ' :: gap.flush read := by
  rcases gap with passed | ⟨_ | b, more⟩
  · exact ⟨⟨rfl, fun h ↦ absurd rfl h⟩, fun read ↦ rfl⟩
  · exact hgap.elim
  · rw [hgap.1] at hbefore
    exact Bool.noConfusion hbefore

/-- A break other than a line feed that follows no space adds itself to the gap. -/
theorem GapAfter.addBreak (hgap : GapAfter before gap) (hbefore : before ≠ ' ')
    (hc : isBreak c = true) (hfeed : c ≠ '\n') :
    GapAfter c (gap.addBreak c) ∧ ∀ read, (gap.addBreak c).flush read = c :: gap.flush read := by
  rcases gap with passed | ⟨_ | b, more⟩
  · refine ⟨⟨hc, hfeed⟩, fun read ↦ ?_⟩
    rw [hgap.2 hbefore, Gap.addBreak, flush_broken hfeed]
    rfl
  · exact hgap.elim
  · refine ⟨⟨hc, hgap.2⟩, fun read ↦ ?_⟩
    rw [Gap.addBreak, flush_broken hgap.2, flush_broken hgap.2, List.cons_append]

theorem GapAfter.empty (hc : isBreak c = false) : GapAfter c .empty := ⟨hc, fun _ ↦ rfl⟩

end ApiManifest.Yaml
