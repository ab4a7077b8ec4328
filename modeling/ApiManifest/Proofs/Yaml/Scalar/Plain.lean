import ApiManifest.Proofs.Yaml.Steps
import ApiManifest.Proofs.Yaml.Style
import ApiManifest.Yaml.Scalar.Plain

/-!
Written plain scalars. A text that may be written plain has no structure of its own, so that a
reader in a block takes all of it, ends at the line, and passes on to the next line if that is not
indented deeper (`plainScalar_written`).
-/

set_option autoImplicit false
set_option relaxedAutoImplicit false

namespace ApiManifest.Yaml

open Scanner

/-- Holds of a rest of the text that ends or starts with a token. -/
def Resumes (cs : List Char) : Prop := ∀ c ∈ cs.head?, StartsToken c

variable {indent : Int} {read cs rest : List Char} {p : Spot}

/-- A gap with a break in it goes on over the spaces of the next line. -/
theorem plainScalar_spaces (first : Option Char) (more : List Char) (k : Nat) :
    plainScalar false indent read (.broken first more) true (place p (spaces k ++ rest)) =
      plainScalar false indent read (.broken first more) true
        (place ⟨p.line, p.column + k⟩ rest) := by
  induction k generalizing p with
  | zero => rfl
  | succ k ih =>
    have hnext : p.after ' ' = ⟨p.line, p.column + 1⟩ := rfl
    rw [spaces, List.replicate_succ, List.cons_append, place_cons, plainScalar, hnext]
    simp only [isBlank, beq_self_eq_true, Bool.true_or, if_true, Bool.and_eq_true,
      show (' ' == '\t') = false from rfl, Bool.false_eq_true, and_false, if_false, Gap.addBlank]
    rw [← spaces, ih, Nat.add_right_comm, Nat.add_assoc]

/-- A plain scalar ends with its line when the next line is not indented deeper. -/
theorem plainScalar_lineEnd {k : Nat} (hk : (k : Int) < indent) (hrest : Resumes rest) :
    plainScalar false indent read .empty false (place p ('\n' :: (spaces k ++ rest))) =
      .ok ⟨read.reverse, place ⟨p.line + 1, k⟩ rest, true⟩ := by
  have hnext : p.after '\n' = ⟨p.line + 1, 0⟩ := rfl
  rw [place_cons, plainScalar, hnext]
  simp only [isBlank, isBreak, beq_self_eq_true, Bool.true_or, if_true,
    show ('\n' == ' ') = false from rfl, show ('\n' == '\t') = false from rfl, Bool.or_self,
    Bool.false_eq_true, if_false, Gap.empty, Gap.addBreak]
  rw [plainScalar_spaces, Nat.zero_add]
  cases rest with
  | nil => rfl
  | cons d ds =>
    obtain ⟨hbreak, hblank, _, _⟩ := hrest d rfl
    rw [place_cons, plainScalar]
    simp only [hbreak, hblank, hk, decide_true, Bool.not_false, Bool.and_self, if_true,
      Bool.false_eq_true, if_false]
    rfl

/-- A colon or a number sign that structures nothing is part of a plain scalar. -/
theorem not_structuresLater_cons {before c : Char} (h : structuresLater before (c :: cs) = false) :
    (c == ':' && separates cs.head?) = false ∧ (c == '#' && separates (some before)) = false ∧
      structuresLater c cs = false := by
  rw [structuresLater, Bool.or_eq_false_iff, Bool.or_eq_false_iff] at h
  exact ⟨h.1.1, h.1.2, h.2⟩

/-- A gap ahead separates words. -/
theorem separates_of_opensGap (h : opensGap (cs ++ '\n' :: rest) = true) :
    separates cs.head? = true := by
  cases cs with
  | nil => rfl
  | cons c cs =>
    rw [List.cons_append, opensGap, isBlank, isBreak] at h
    simp only [List.head?_cons, separates, endsLine, Bool.or_eq_true, beq_iff_eq] at h ⊢
    tauto

/-- Where words are not separated a colon starts no value. -/
theorem colon_of_not_separates {c : Char} (h : (c == ':' && separates cs.head?) = false)
    (q : Spot) :
    (c == ':' && gapAhead (place q (cs ++ '\n' :: rest))) = false := by
  rw [gapAhead_place]
  cases hgap : opensGap (cs ++ '\n' :: rest) with
  | false => rw [Bool.and_false]
  | true =>
    rw [separates_of_opensGap hgap] at h
    exact h

/-- A character that starts no gap and no structure is taken into a plain scalar. -/
theorem plainScalar_char {c : Char} {gap : Gap} {inGap : Bool} (hblank : isBlank c = false)
    (hbreak : isBreak c = false) (hp : p.column ≠ 0) (hin : indent ≤ p.column)
    (hcomment : (inGap && c == '#') = false)
    (hcolon : (c == ':' && gapAhead (place (p.after c) cs)) = false) :
    plainScalar false indent read gap inGap (place p (c :: cs)) =
      plainScalar false indent (c :: gap.flush read) .empty false (place (p.after c) cs) := by
  have hmark := documentMarkAhead_off_margin hp (c :: cs)
  have hcolumn : decide ((p.column : Int) < indent) = false := decide_eq_false (by omega)
  rw [place_cons] at hmark ⊢
  rw [plainScalar]
  simp only [hblank, hbreak, hmark, hcomment, hcolon, hcolumn, Bool.and_false, Bool.false_and,
    Bool.or_self, Bool.false_eq_true, if_false]

/-- After its first character a plain scalar is read to the end of its line. Spaces wait in the gap
until a character follows them, and one does, since the text does not end in a space. -/
theorem plainScalar_later (before : Char) (passed read : List Char) (p : Spot) {k : Nat}
    (hk : (k : Int) < indent) (hrest : Resumes rest) (hpassed : before ≠ ' ' → passed = [])
    (hshown : ∀ c ∈ cs, isShown c = true ∧ endsLine c = false)
    (hlater : structuresLater before cs = false) (hlast : (before :: cs).getLast? ≠ some ' ')
    (hp : p.column ≠ 0) (hin : indent ≤ p.column) :
    plainScalar false indent read (.blanks passed) (before == ' ')
        (place p (cs ++ '\n' :: (spaces k ++ rest))) =
      .ok ⟨(passed ++ read).reverse ++ cs, place ⟨p.line + 1, k⟩ rest, true⟩ := by
  induction cs generalizing before passed read p with
  | nil =>
    have hbefore : before ≠ ' ' := fun h ↦ hlast (by rw [h]; rfl)
    rw [hpassed hbefore, beq_eq_false_iff_ne.mpr hbefore, List.append_nil, List.nil_append]
    exact plainScalar_lineEnd hk hrest
  | cons c cs ih =>
    obtain ⟨hcolon, hcomment, hnext⟩ := not_structuresLater_cons hlater
    obtain ⟨hc, hends⟩ := hshown c List.mem_cons_self
    have hbreak : isBreak c = false := by rw [← endsLine_of_isShown hc, hends]
    have hcolumn : p.after c = ⟨p.line, p.column + 1⟩ := p.after_of_not_isBreak hbreak
    have hrest' := fun d hd ↦ hshown d (List.mem_cons_of_mem c hd)
    rw [List.getLast?_cons_cons] at hlast
    rw [List.cons_append]
    by_cases hspace : c = ' '
    · subst hspace
      rw [place_cons, plainScalar]
      simp only [isBlank, beq_self_eq_true, Bool.true_or, if_true, Gap.isBroken, Bool.false_and,
        Bool.false_eq_true, if_false, Gap.addBlank, hcolumn]
      have htail := ih ' ' (' ' :: passed) read ⟨p.line, p.column + 1⟩
        (fun h ↦ absurd rfl h) hrest' hnext hlast (Nat.succ_ne_zero _)
        (by push_cast; omega)
      rw [beq_self_eq_true] at htail
      rw [htail]
      simp
    · have hblank : isBlank c = false := by
        rw [isBlank_of_isShown hc, beq_eq_false_iff_ne.mpr hspace]
      have hnumber : ((before == ' ') && c == '#') = false := by
        by_contra h
        rw [Bool.not_eq_false, Bool.and_eq_true, beq_iff_eq, beq_iff_eq] at h
        rw [h.1, h.2] at hcomment
        exact absurd hcomment (by decide)
      rw [plainScalar_char hblank hbreak hp hin hnumber (colon_of_not_separates hcolon _), hcolumn]
      have htail := ih c [] (c :: (passed ++ read)) ⟨p.line, p.column + 1⟩
        (fun _ ↦ rfl) hrest' hnext hlast (Nat.succ_ne_zero _)
        (by push_cast; omega)
      rw [beq_eq_false_iff_ne.mpr hspace] at htail
      rw [show Gap.empty = .blanks [] from rfl,
        show (Gap.blanks passed).flush read = passed ++ read from
        rfl, htail]
      simp

/-- The characters that a writer takes for the start of something else than a plain scalar. -/
def isOpening (c : Char) : Bool := "#,[]\x7b\x7d&*!|>'\"%@".toList.contains c || c == '\x60'

/-- What makes a text plain: its characters are shown, no line ends in it, no space stands at its
end, and nothing in it has a structure. -/
theorem plainAllowed_cons {c : Char} (h : plainAllowed (c :: cs) = true) :
    (∀ d ∈ c :: cs, isShown d = true ∧ endsLine d = false) ∧ c ≠ ' ' ∧
      (c :: cs).getLast? ≠ some ' ' ∧ isOpening c = false ∧
        ((c == '?' || c == ':' || c == '-') && separates cs.head?) = false ∧
          structuresLater c cs = false := by
  simp only [plainAllowed, singleAllowed, Bool.and_eq_true, Bool.not_eq_true'] at h
  obtain ⟨⟨⟨⟨⟨hshown, _⟩, _⟩, hpadded⟩, hline⟩, hstructures⟩ := h
  rw [structures] at hstructures
  simp only [Bool.or_eq_false_iff] at hstructures
  obtain ⟨_, ⟨⟨hopening, hquote⟩, hseparates⟩, hlater⟩ := hstructures
  rw [List.any_eq_false] at hline
  refine ⟨fun d hd ↦ ⟨List.all_eq_true.mp hshown d hd, Bool.eq_false_iff.mpr (hline d hd)⟩,
    ?_, ?_, ?_, ?_, hlater⟩
  · rintro rfl
    simp [paddedEnds] at hpadded
  · intro hlast
    simp [paddedEnds, hlast] at hpadded
  · rw [isOpening, hopening, hquote, Bool.or_self]
  · simpa [Bool.or_assoc] using hseparates

/-- A reader in a block takes a written plain scalar as it is, and passes on to the next line. -/
theorem plainScalar_written {c : Char} {k : Nat} (h : plainAllowed (c :: cs) = true)
    (hk : (k : Int) < indent) (hrest : Resumes rest) (hp : p.column ≠ 0) (hin : indent ≤ p.column) :
    plainScalar false indent [] .empty false (place p (c :: cs ++ '\n' :: (spaces k ++ rest))) =
      .ok ⟨c :: cs, place ⟨p.line + 1, k⟩ rest, true⟩ := by
  obtain ⟨hshown, hspace, hlast, _, hseparates, hlater⟩ := plainAllowed_cons h
  obtain ⟨hc, hends⟩ := hshown c List.mem_cons_self
  have hbreak : isBreak c = false := by rw [← endsLine_of_isShown hc, hends]
  have hblank : isBlank c = false := by
    rw [isBlank_of_isShown hc, beq_eq_false_iff_ne.mpr hspace]
  have hcolon : (c == ':' && separates cs.head?) = false := by
    rw [Bool.and_eq_false_iff, Bool.or_eq_false_iff, Bool.or_eq_false_iff] at hseparates
    rw [Bool.and_eq_false_iff]
    exact hseparates.imp_left fun h ↦ h.1.2
  have hlater' := plainScalar_later c [] [c] (p.after c) hk hrest (fun _ ↦ rfl)
    (fun d hd ↦ hshown d (List.mem_cons_of_mem c hd)) hlater hlast
  rw [beq_eq_false_iff_ne.mpr hspace, p.after_of_not_isBreak hbreak] at hlater'
  rw [List.cons_append, plainScalar_char hblank hbreak hp hin rfl (colon_of_not_separates hcolon _),
    p.after_of_not_isBreak hbreak]
  exact hlater' (Nat.succ_ne_zero _) (by push_cast; omega)

end ApiManifest.Yaml
