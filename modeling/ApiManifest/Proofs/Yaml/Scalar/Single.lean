import ApiManifest.Proofs.Yaml.Scalar.Gap
import ApiManifest.Proofs.Yaml.Style
import ApiManifest.Yaml.Scalar.Quoted

/-!
Written single-quoted scalars. A line that follows a Unicode separator is indented, and the reader
drops the indentation; neither side has a space beside the end of a line, so that the reader folds
nothing (`singleQuoted_written`).
-/

set_option autoImplicit false
set_option relaxedAutoImplicit false

namespace ApiManifest.Yaml

variable {before c : Char} {gap : Gap} {read cs : List Char} {p : Spot}

/-- A gap with a break in it goes on over the indentation. -/
theorem singleQuoted_spaces (hgap : gap.isBroken = true) (n : Nat) :
    singleQuoted read gap (place p (spaces n ++ cs)) =
      singleQuoted read gap (place ⟨p.line, p.column + n⟩ cs) := by
  induction n generalizing p with
  | zero => rfl
  | succ n ih =>
    have hsame : gap.addBlank ' ' = gap := by
      cases gap with
      | blanks passed => exact Bool.noConfusion hgap
      | broken first more => rfl
    rw [spaces, List.replicate_succ, List.cons_append, place_cons, singleQuoted.eq_def]
    simp only [isBlank, beq_self_eq_true, Bool.true_or, if_true, hsame]
    rw [← spaces, show p.after ' ' = ⟨p.line, p.column + 1⟩ from rfl, ih, Nat.add_right_comm,
      Nat.add_assoc]

/-- A character that is neither blank nor break nor quote stands for itself. -/
theorem singleQuoted_char (hblank : isBlank c = false) (hbreak : isBreak c = false)
    (hp : p.column ≠ 0) (hquote : c ≠ '\'') :
    singleQuoted read gap (place p (c :: cs)) =
      singleQuoted (c :: gap.flush read) .empty (place (p.after c) cs) := by
  have hmark := documentMarkAhead_off_margin hp (c :: cs)
  rw [place_cons] at hmark ⊢
  rw [singleQuoted.eq_def]
  simp only [hblank, hbreak, hmark, beq_eq_false_iff_ne.mpr hquote, Bool.false_eq_true, if_false]

/-- Two quotes stand for one. -/
theorem singleQuoted_twice (hp : p.column ≠ 0) :
    singleQuoted read gap (place p ('\'' :: '\'' :: cs)) =
      singleQuoted ('\'' :: gap.flush read) .empty (place (p.past ['\'', '\'']) cs) := by
  have hmark := documentMarkAhead_off_margin hp ('\'' :: '\'' :: cs)
  rw [place_cons, place_cons] at hmark ⊢
  rw [singleQuoted.eq_def]
  simp only [hmark, Bool.false_eq_true, if_false]
  rfl

/-- A quote at the end of a line ends the scalar. -/
theorem singleQuoted_end (hp : p.column ≠ 0) :
    singleQuoted read gap (place p ('\'' :: '\n' :: cs)) =
      .ok ((gap.flush read).reverse, place (p.after '\'') ('\n' :: cs)) := by
  have hmark := documentMarkAhead_off_margin hp ('\'' :: '\n' :: cs)
  rw [place_cons, place_cons] at hmark ⊢
  rw [singleQuoted.eq_def]
  simp only [hmark, Bool.false_eq_true, if_false]
  rfl

theorem singleChars_break (width : Nat) (afterBreak : Bool) (hc : endsLine c = true) :
    singleChars width afterBreak (c :: cs) = c :: singleChars width true cs := by
  rw [singleChars, if_pos hc]

theorem singleChars_space (width : Nat) (afterBreak : Bool) :
    singleChars width afterBreak (' ' :: cs) = ' ' :: singleChars width afterBreak cs := rfl

theorem singleChars_char (width : Nat) (afterBreak : Bool) (hc : endsLine c = false)
    (hspace : c ≠ ' ') :
    singleChars width afterBreak (c :: cs) =
      indentation width afterBreak ++
        ((if c = '\'' then ['\'', '\''] else [c]) ++ singleChars width false cs) := by
  rw [singleChars, if_neg (by rw [hc]; exact Bool.false_ne_true), if_neg (by simpa using hspace),
    List.append_assoc]
  simp only [beq_iff_eq, indentation]

/-- A reader passes over the indentation and is then off the margin. -/
theorem singleQuoted_indentation {width : Nat} (hwidth : 0 < width) (hgap : GapAfter before gap)
    (hp : isBreak before = false → p.column ≠ 0) (read cs : List Char) :
    singleQuoted read gap (place p (indentation width (isBreak before) ++ cs)) =
        singleQuoted read gap (place (p.past (indentation width (isBreak before))) cs) ∧
      (p.past (indentation width (isBreak before))).column ≠ 0 := by
  cases hbreak : isBreak before with
  | false => exact ⟨rfl, hp hbreak⟩
  | true =>
    rw [indentation, if_pos rfl, singleQuoted_spaces (by rw [hgap.isBroken, hbreak]), past_spaces]
    exact ⟨rfl, by simp only; omega⟩

/-- A reader takes the characters between single quotes for the text that was written. -/
theorem singleQuoted_chars {width : Nat} (hwidth : 0 < width) (before : Char) (gap : Gap)
    (read : List Char) (p : Spot) (rest : List Char) (hgap : GapAfter before gap)
    (hshown : ∀ c ∈ cs, isShown c = true ∧ c ≠ '\n')
    (hspaced : hasNeighbours (fun a b ↦ a == ' ' && endsLine b) (before :: cs) = false)
    (hindented : hasNeighbours (fun a b ↦ endsLine a && b == ' ') (before :: cs) = false)
    (hbefore : endsLine before = isBreak before) (hp : isBreak before = false → p.column ≠ 0) :
    singleQuoted read gap
        (place p (singleChars width (isBreak before) cs ++ '\'' :: '\n' :: rest)) =
      .ok ((gap.flush read).reverse ++ cs,
        place (p.past (singleChars width (isBreak before) cs ++ ['\''])) ('\n' :: rest)) := by
  induction cs generalizing before gap read p with
  | nil =>
    obtain ⟨hskip, hcolumn⟩ := singleQuoted_indentation hwidth hgap hp read ('\'' :: '\n' :: rest)
    rw [show singleChars width (isBreak before) [] = indentation width (isBreak before) from rfl,
      hskip, singleQuoted_end hcolumn, Spot.past_append, List.append_nil]
    rfl
  | cons c cs ih =>
    obtain ⟨hc, hfeed⟩ := hshown c List.mem_cons_self
    have hends := endsLine_of_isShown hc
    have hrest := fun d hd ↦ hshown d (List.mem_cons_of_mem c hd)
    rw [hasNeighbours, Bool.or_eq_false_iff] at hspaced hindented
    by_cases hspace : c = ' '
    · subst hspace
      have hsame : isBreak before = false := by
        rw [hbefore] at hindented
        simpa using hindented.1
      obtain ⟨hgap', hflush⟩ := hgap.addBlank hsame
      have htail := ih ' ' (gap.addBlank ' ') read (p.after ' ') hgap' hrest hspaced.2 hindented.2
        rfl fun _ ↦ Nat.succ_ne_zero _
      rw [singleChars_space, hsame, List.cons_append, place_cons, singleQuoted.eq_def]
      simp only [isBlank, beq_self_eq_true, Bool.true_or, if_true]
      rw [show isBreak ' ' = false from rfl] at htail
      rw [htail, hflush, List.cons_append, Spot.past_cons]
      simp
    have hblank : isBlank c = false := by
      rw [isBlank_of_isShown hc, beq_eq_false_iff_ne.mpr hspace]
    cases hbreak : isBreak c with
    | true =>
      have hlast : before ≠ ' ' := by
        rintro rfl
        rw [hends, hbreak] at hspaced
        exact Bool.noConfusion hspaced.1
      obtain ⟨hgap', hflush⟩ := hgap.addBreak hlast hbreak hfeed
      have htail := ih c (gap.addBreak c) read (p.after c) hgap' hrest hspaced.2 hindented.2 hends
        fun h ↦ absurd hbreak (by rw [h]; exact Bool.false_ne_true)
      rw [hbreak] at htail
      rw [singleChars_break width _ (by rw [hends, hbreak]), List.cons_append, place_cons,
        singleQuoted.eq_def]
      simp only [hblank, hbreak, Bool.false_eq_true, if_false, if_true]
      rw [htail, hflush, List.cons_append, Spot.past_cons]
      simp
    | false =>
      have htail (q : Spot) (hq : q.column ≠ 0) := ih c .empty (c :: gap.flush read) q
        (.empty hbreak) hrest hspaced.2 hindented.2 hends fun _ ↦ hq
      rw [hbreak] at htail
      rw [singleChars_char width _ (by rw [hends, hbreak]) hspace, List.append_assoc,
        List.append_assoc]
      obtain ⟨hskip, hcolumn⟩ := singleQuoted_indentation hwidth hgap hp read
        ((if c = '\'' then ['\'', '\''] else [c]) ++
          (singleChars width false cs ++ '\'' :: '\n' :: rest))
      rw [hskip, List.append_assoc, List.append_assoc, Spot.past_append]
      generalize p.past (indentation width (isBreak before)) = q at hcolumn ⊢
      by_cases hquote : c = '\''
      · subst hquote
        rw [if_pos rfl, List.cons_append, List.cons_append, List.nil_append,
          singleQuoted_twice hcolumn, htail _ (Nat.succ_ne_zero _), Spot.past_append]
        simp [Gap.empty, Gap.flush, Spot.past_append]
      · rw [if_neg hquote, List.cons_append, List.nil_append,
          singleQuoted_char hblank hbreak hcolumn hquote, htail _ (by
            rw [Spot.after_of_not_isBreak q hbreak]
            exact Nat.succ_ne_zero _), Spot.past_append]
        simp [Gap.empty, Gap.flush, Spot.past_append]

/-- A single-quoted scalar at the end of a line is read as the text that was written. -/
theorem singleQuoted_written {width : Nat} (hwidth : 0 < width) (h : singleAllowed cs = true)
    (hfeed : '\n' ∉ cs) (hp : p.column ≠ 0) (rest : List Char) :
    singleQuoted [] .empty (place p (singleChars width false cs ++ '\'' :: '\n' :: rest)) =
      .ok (cs, place (p.past (singleChars width false cs ++ ['\''])) ('\n' :: rest)) := by
  simp only [singleAllowed, Bool.and_eq_true, Bool.not_eq_true'] at h
  obtain ⟨⟨hshown, hspaced⟩, hindented⟩ := h
  have hshown' : ∀ c ∈ cs, isShown c = true ∧ c ≠ '\n' :=
    fun c hc ↦ ⟨List.all_eq_true.mp hshown c hc, fun h ↦ hfeed (h ▸ hc)⟩
  -- The opening quote stands for the character before the text: it is neither space nor break.
  have hstart {q : Char → Char → Bool} (hq : ∀ b, q '\'' b = false)
      (h : hasNeighbours q cs = false) :
      hasNeighbours q ('\'' :: cs) = false := by
    cases cs with
    | nil => rfl
    | cons c cs => rw [hasNeighbours, hq, h, Bool.or_self]
  exact singleQuoted_chars hwidth '\'' .empty [] p rest (.empty rfl) hshown'
    (hstart (fun _ ↦ rfl) hspaced) (hstart (fun _ ↦ rfl) hindented) rfl fun _ ↦ hp

end ApiManifest.Yaml
