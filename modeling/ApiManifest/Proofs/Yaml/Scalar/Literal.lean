import ApiManifest.Proofs.Yaml.Scalar.Plain
import ApiManifest.Yaml.Scalar.Block

/-!
Written literal blocks. Every line that is not empty is indented, and a reader takes the indentation
away again. It holds the lines that are finished, the break after them and the breaks of empty lines
apart, since it cannot tell yet which of these the end of the scalar keeps; together they are the
text (`BlockLines.Holds`). The chomping indicator has the reader keep just the breaks that the text
ends with (`literal_written`).
-/

set_option autoImplicit false
set_option relaxedAutoImplicit false

namespace ApiManifest.Yaml

open Scanner

variable {text cs rest : List Char} {c : Char} {p : Spot} {indent k : Nat} {b : BlockLines}
  {chomping : Chomping}

/-- Holds when the lines read so far are the text; inside a line no break waits. -/
structure BlockLines.Holds (text : List Char) (inLine : Bool) (b : BlockLines) : Prop where
  text_eq : b.breaks ++ (b.lineBreak.toList ++ b.read) = text.reverse
  isBreak_of_mem : ∀ c ∈ b.breaks ++ b.lineBreak.toList, isBreak c = true
  started : b.lineBreak = none → inLine = false → b.read = []
  inside : inLine = true → b.breaks = [] ∧ b.lineBreak = none

namespace BlockLines.Holds

theorem nil : (⟨[], none, [], false⟩ : BlockLines).Holds [] false :=
  ⟨rfl, fun _ h ↦ absurd h List.not_mem_nil, fun _ _ ↦ rfl, fun h ↦ absurd h Bool.false_ne_true⟩

theorem join_eq {inLine : Bool} (h : b.Holds text inLine) (first : Char) :
    b.join false first = text.reverse := by
  rw [← h.text_eq, join]
  simp only [Bool.false_and, Bool.false_eq_true, if_false]
  cases b.lineBreak <;> rfl

/-- A character that follows a break starts a line. -/
theorem startLine {inLine : Bool} (h : b.Holds text inLine) (c : Char) :
    (⟨c :: b.join false c, none, [], isBlank c⟩ : BlockLines).Holds (text ++ [c]) true :=
  ⟨by rw [h.join_eq, List.reverse_append]; rfl, fun _ h ↦ absurd h List.not_mem_nil,
    fun _ h ↦ absurd h Bool.true_eq_false.mp, fun _ ↦ ⟨rfl, rfl⟩⟩

theorem read_eq (h : b.Holds text true) : b.read = text.reverse := by
  have htext := h.text_eq
  rw [(h.inside rfl).1, (h.inside rfl).2] at htext
  exact htext

/-- A character inside a line goes on with it. -/
theorem goOn (h : b.Holds text true) (c : Char) :
    (⟨c :: b.read, none, [], b.blankLed⟩ : BlockLines).Holds (text ++ [c]) true :=
  ⟨by rw [h.read_eq, List.reverse_append]; rfl, fun _ h ↦ absurd h List.not_mem_nil,
    fun _ h ↦ absurd h Bool.true_eq_false.mp, fun _ ↦ ⟨rfl, rfl⟩⟩

/-- A break ends a line. -/
theorem endLine (h : b.Holds text true) (hc : isBreak c = true) :
    (⟨b.read, some c, [], b.blankLed⟩ : BlockLines).Holds (text ++ [c]) false := by
  refine ⟨by rw [h.read_eq, List.reverse_append]; rfl, fun d hd ↦ ?_, (fun h ↦ nomatch h),
    fun h ↦ absurd h Bool.false_ne_true⟩
  rw [List.nil_append, Option.toList_some, List.mem_singleton] at hd
  rw [hd, hc]

/-- A break ends an empty line. -/
theorem emptyLine (h : b.Holds text false) (hc : isBreak c = true) :
    (⟨b.read, b.lineBreak, c :: b.breaks, b.blankLed⟩ : BlockLines).Holds (text ++ [c]) false := by
  refine ⟨?_, fun d hd ↦ ?_, h.started, fun h ↦ absurd h Bool.false_ne_true⟩
  · rw [List.cons_append, h.text_eq, List.reverse_append]
    rfl
  · rw [List.cons_append, List.mem_cons] at hd
    rcases hd with rfl | hd
    · exact hc
    · exact h.isBreak_of_mem d hd

/-- Inside a line the text is what is left when the breaks at the end go. -/
theorem finish_strip (h : b.Holds text true) : b.finish .strip = text := by
  rw [finish, h.read_eq, List.reverse_reverse]

theorem finish_keep {inLine : Bool} (h : b.Holds text inLine) : b.finish .keep = text := by
  rw [← List.reverse_inj, ← h.text_eq, finish, List.reverse_reverse]
  cases b.lineBreak <;> rfl

/-- When one break ends the text, it is the break that ended the last line. -/
theorem finish_clip (h : b.Holds text false) {d : Char} {init : List Char}
    (htext : text.reverse = c :: d :: init) (hd : isBreak d = false) : b.finish .clip = text := by
  have hbreaks : b.breaks = [] := by
    have heq := h.text_eq
    have hmem := h.isBreak_of_mem
    rw [htext] at heq
    rcases hb : b.breaks with _ | ⟨x, _ | ⟨y, more⟩⟩
    · rfl
    · rw [hb, List.singleton_append] at heq
      rcases hl : b.lineBreak with _ | e
      · rw [hl, h.started hl rfl] at heq
        simp at heq
      · rw [hl, Option.toList_some, List.singleton_append] at heq
        have he : e = d := by simp_all
        have := hmem e (by simp [hl])
        rw [he, hd] at this
        exact Bool.noConfusion this
    · rw [hb, List.cons_append, List.cons_append] at heq
      have hy : y = d := by simp_all
      have := hmem y (by simp [hb])
      rw [hy, hd] at this
      exact Bool.noConfusion this
  have hkeep := h.finish_keep
  rw [finish, hbreaks, List.nil_append] at hkeep
  exact hkeep

end BlockLines.Holds

/-- The reader of a block passes over the indentation of a line. -/
theorem blockLines_spaces {n : Nat} (hn : p.column + n ≤ indent) :
    blockLines false chomping indent b false (place p (spaces n ++ cs)) =
      blockLines false chomping indent b false (place ⟨p.line, p.column + n⟩ cs) := by
  induction n generalizing p with
  | zero => rfl
  | succ n ih =>
    have hcolumn : p.column < indent := by omega
    have hnext : p.after ' ' = ⟨p.line, p.column + 1⟩ := rfl
    rw [spaces, List.replicate_succ, List.cons_append, place_cons, blockLines, hnext]
    simp only [hcolumn, true_and, if_true, Bool.false_eq_true, if_false]
    rw [← spaces, ih (by simp only; omega), Nat.add_right_comm, Nat.add_assoc]

/-- A character at the indentation starts a line. -/
theorem blockLines_first (hc : isBreak c = false) (line : Nat) :
    blockLines false chomping indent b false (place ⟨line, indent⟩ (c :: cs)) =
      blockLines false chomping indent ⟨c :: b.join false c, none, [], isBlank c⟩ true
        (place ⟨line, indent + 1⟩ cs) := by
  rw [place_cons, blockLines, Spot.after_of_not_isBreak _ hc]
  simp only [lt_irrefl, false_and, hc, Bool.false_eq_true, if_false, if_true]

/-- Whether the end of the text is the end of a line. -/
def endsBroken (afterBreak : Bool) (cs : List Char) : Bool :=
  (cs.getLast?.map endsLine).getD afterBreak

theorem endsBroken_cons (afterBreak : Bool) :
    endsBroken afterBreak (c :: cs) = endsBroken (endsLine c) cs := by
  rw [endsBroken, endsBroken, List.getLast?_cons]
  cases cs.getLast? <;> rfl

theorem literalChars_break (afterBreak : Bool) (hc : endsLine c = true) :
    literalChars indent afterBreak (c :: cs) = c :: literalChars indent true cs := by
  rw [literalChars, if_pos hc]

theorem literalChars_char (afterBreak : Bool) (hc : endsLine c = false) :
    literalChars indent afterBreak (c :: cs) =
      indentation indent afterBreak ++ c :: literalChars indent false cs := by
  rw [literalChars, if_neg (by rw [hc]; exact Bool.false_ne_true)]
  rfl

/-- The lines of a block are read as the text that was written. -/
theorem blockLines_chars (afterBreak : Bool) (hshown : ∀ c ∈ cs, isShown c = true)
    (hb : b.Holds text (!afterBreak)) (hp : afterBreak = true → p.column = 0) :
    ∃ b' : BlockLines, b'.Holds (text ++ cs) (!endsBroken afterBreak cs) ∧
      (endsBroken afterBreak cs = true →
        (p.past (literalChars indent afterBreak cs)).column = 0) ∧
      ∀ chomping rest,
        blockLines false chomping indent b (!afterBreak)
            (place p (literalChars indent afterBreak cs ++ rest)) =
          blockLines false chomping indent b' (!endsBroken afterBreak cs)
            (place (p.past (literalChars indent afterBreak cs)) rest) := by
  induction cs generalizing text b p afterBreak with
  | nil => exact ⟨b, by rw [List.append_nil]; exact hb, hp, fun _ _ ↦ rfl⟩
  | cons c cs ih =>
    have hends := endsLine_of_isShown (hshown c List.mem_cons_self)
    have hrest := fun d hd ↦ hshown d (List.mem_cons_of_mem c hd)
    rw [endsBroken_cons, hends]
    cases hbreak : isBreak c with
    | true =>
      rw [hbreak] at hends
      have hcolumn : p.after c = ⟨p.line + 1, 0⟩ := p.after_of_isBreak hbreak
      rw [literalChars_break afterBreak hends, Spot.past_cons]
      cases afterBreak with
      | true =>
        obtain ⟨b', hb', hend, hread⟩ := ih true hrest (hb.emptyLine hbreak) (p := p.after c)
          fun _ ↦ by rw [hcolumn]
        refine ⟨b', by simpa using hb', hend, fun chomping rest ↦ ?_⟩
        have hblank : c ≠ ' ' ∧ c ≠ '\t' := by
          constructor <;> rintro rfl <;> exact absurd hbreak (by decide)
        rw [List.cons_append, place_cons, blockLines, ← hread]
        simp only [Bool.not_true, Bool.false_eq_true, if_false, hblank.1, hblank.2, and_false,
          hbreak, if_true]
      | false =>
        obtain ⟨b', hb', hend, hread⟩ := ih true hrest (hb.endLine hbreak) (p := p.after c)
          fun _ ↦ by rw [hcolumn]
        refine ⟨b', by simpa using hb', hend, fun chomping rest ↦ ?_⟩
        rw [List.cons_append, place_cons, blockLines, ← hread]
        simp only [Bool.not_false, if_true, hbreak, Bool.not_true]
    | false =>
      rw [hbreak] at hends
      rw [literalChars_char afterBreak hends]
      cases afterBreak with
      | true =>
        obtain ⟨b', hb', hend, hread⟩ := ih false hrest (hb.startLine c)
          (p := ⟨p.line, indent + 1⟩) fun h ↦ absurd h Bool.false_ne_true
        have hpast : p.past (spaces indent ++ c :: literalChars indent false cs) =
            (⟨p.line, indent + 1⟩ : Spot).past (literalChars indent false cs) := by
          rw [Spot.past_append, past_spaces, Spot.past_cons, Spot.after_of_not_isBreak _ hbreak,
            hp rfl, Nat.zero_add]
        rw [indentation, if_pos rfl, hpast]
        refine ⟨b', by simpa using hb', hend, fun chomping rest ↦ ?_⟩
        rw [List.append_assoc, Bool.not_true, blockLines_spaces (by rw [hp rfl, Nat.zero_add]),
          hp rfl, Nat.zero_add, List.cons_append, blockLines_first hbreak, ← hread, Bool.not_false]
      | false =>
        obtain ⟨b', hb', hend, hread⟩ := ih false hrest (hb.goOn c) (p := p.after c)
          fun h ↦ absurd h Bool.false_ne_true
        rw [indentation, if_neg Bool.false_ne_true, List.nil_append, Spot.past_cons]
        refine ⟨b', by simpa using hb', hend, fun chomping rest ↦ ?_⟩
        rw [List.cons_append, place_cons, blockLines, ← hread]
        simp only [Bool.not_false, if_true, hbreak, Bool.false_eq_true, if_false]

/-- A block ends before a line that is not indented as deep. -/
theorem blockLines_end (hk : k < indent) (hrest : Resumes rest) (hp : p.column = 0) :
    blockLines false chomping indent b false (place p (spaces k ++ rest)) =
      .ok (b.finish chomping, place ⟨p.line, k⟩ rest) := by
  rw [blockLines_spaces (by omega), hp, Nat.zero_add]
  cases rest with
  | nil => rfl
  | cons c rest =>
    obtain ⟨hbreak, hblank, _, _⟩ := hrest c rfl
    rw [isBlank, Bool.or_eq_false_iff, beq_eq_false_iff_ne, beq_eq_false_iff_ne] at hblank
    rw [place_cons, blockLines]
    simp only [Bool.false_eq_true, if_false, hblank.1, hblank.2, and_false, hbreak, Nat.ne_of_lt hk]

/-- The spelling of a chomping in a header. -/
def Chomping.hint : Chomping → List Char
  | .strip => ['-']
  | .clip => []
  | .keep => ['+']

/-- What a header says of the end of the text: no break is there, one is, or there are more breaks
or nothing else. -/
theorem chompingHint_cases (cs : List Char) :
    (chompingHint cs = Chomping.hint .strip ∧ endsBroken false cs = false) ∨
      (chompingHint cs = Chomping.hint .keep ∧ endsBroken false cs = true) ∨
        (chompingHint cs = Chomping.hint .clip ∧ endsBroken false cs = true ∧
          ∃ c d init, cs.reverse = c :: d :: init ∧ endsLine d = false) := by
  have hlast : endsBroken false cs = (cs.reverse.head?.map endsLine).getD false := by
    rw [List.head?_reverse, endsBroken]
  rw [chompingHint, hlast]
  rcases cs.reverse with _ | ⟨c, _ | ⟨d, init⟩⟩
  · exact .inl ⟨rfl, rfl⟩
  · cases hc : endsLine c with
    | false => exact .inl ⟨by simp [hc, Chomping.hint], by simp [hc]⟩
    | true => exact .inr (.inl ⟨by simp [hc, Chomping.hint], by simp [hc]⟩)
  · cases hc : endsLine c with
    | false => exact .inl ⟨by simp [hc, Chomping.hint], by simp [hc]⟩
    | true =>
      cases hd : endsLine d with
      | false =>
        exact .inr (.inr ⟨by simp [hc, hd, Chomping.hint], by simp [hc], c, d, init, rfl, hd⟩)
      | true => exact .inr (.inl ⟨by simp [hc, hd, Chomping.hint], by simp [hc]⟩)

/-- The two forms of a header: a block whose first line starts with a space or is empty tells its
indentation. -/
theorem indentationHint_cases (c : Char) (cs : List Char) :
    (indentationHint (c :: cs) = ['2'] ∧ (c = ' ' ∨ endsLine c = true)) ∨
      (indentationHint (c :: cs) = [] ∧ c ≠ ' ' ∧ endsLine c = false) := by
  rw [indentationHint, List.head?_cons]
  by_cases hc : (c == ' ' || endsLine c) = true
  · exact .inl ⟨by simp only [hc, if_true], by simpa using hc⟩
  · exact .inr ⟨by simp only [hc, Bool.false_eq_true, if_false], by simpa using hc⟩

/-- A header with an indentation indicator. -/
theorem blockHeader_two (chomping : Chomping) :
    blockHeader (place p ('2' :: (chomping.hint ++ '\n' :: rest))) =
      .ok (⟨chomping, some 2⟩, place ⟨p.line + 1, 0⟩ rest) := by
  cases chomping <;> rfl

/-- A header without an indentation indicator. -/
theorem blockHeader_plain (chomping : Chomping) :
    blockHeader (place p (chomping.hint ++ '\n' :: rest)) =
      .ok (⟨chomping, none⟩, place ⟨p.line + 1, 0⟩ rest) := by
  cases chomping <;> rfl

/-- The indentation of a block that starts with a line of text is that of the line. -/
theorem leadingLines_spaces {n widest : Nat} (hc : isShown c = true) (hspace : c ≠ ' ')
    (hbreak : isBreak c = false) (line column : Nat) :
    leadingLines widest [] (place ⟨line, column⟩ (spaces n ++ c :: cs)) =
      .ok (max widest (column + n), [], place ⟨line, column + n⟩ (c :: cs)) := by
  induction n generalizing column with
  | zero =>
    have htab : c ≠ '\t' := by
      rintro rfl
      exact absurd hc (by decide)
    rw [show spaces 0 = [] from rfl, List.nil_append, place_cons, leadingLines]
    simp [hspace, htab, hbreak]
  | succ n ih =>
    have hnext : (⟨line, column⟩ : Spot).after ' ' = ⟨line, column + 1⟩ := rfl
    rw [spaces, List.replicate_succ, List.cons_append, place_cons, leadingLines, hnext,
      ← spaces, ih]
    simp only [beq_self_eq_true, if_true, Nat.add_right_comm, Nat.add_assoc]

/-- The lines of a block from its first line on, before a line that is not indented as deep. -/
theorem blockLines_written (afterBreak : Bool) (hshown : ∀ c ∈ cs, isShown c = true)
    (hb : b.Holds text (!afterBreak)) (hp : afterBreak = true → p.column = 0) (hk : k < indent)
    (hrest : Resumes rest) (hcs : endsBroken afterBreak cs = endsBroken false (text ++ cs)) :
    ∃ chomping, chompingHint (text ++ cs) = Chomping.hint chomping ∧ ∃ line,
      blockLines false chomping indent b (!afterBreak)
          (place p (literalChars indent afterBreak cs ++
            ((if endsBroken false (text ++ cs) then [] else ['\n']) ++ (spaces k ++ rest)))) =
        .ok (text ++ cs, place ⟨line, k⟩ rest) := by
  obtain ⟨b', hb', hend, hread⟩ := blockLines_chars afterBreak hshown hb hp
  generalize p.past (literalChars indent afterBreak cs) = q at hend hread
  rw [hcs] at hb' hend hread
  generalize text ++ cs = whole at hb' hend hread
  simp only [hread]
  obtain ⟨hhint, hlast⟩ | ⟨hhint, hlast⟩ | ⟨hhint, hlast, c, d, init, htext, hd⟩ :=
    chompingHint_cases whole
  · rw [hlast] at hb' hread
    refine ⟨.strip, hhint, q.line + 1, ?_⟩
    rw [hlast, Bool.not_false, if_neg Bool.false_ne_true, List.singleton_append, place_cons,
      blockLines]
    simp only [if_true, show isBreak '\n' = true from rfl]
    rw [blockLines_end hk hrest rfl]
    exact congrArg _ (congrArg (·, _) hb'.finish_strip)
  · rw [hlast] at hb'
    refine ⟨.keep, hhint, q.line, ?_⟩
    rw [hlast, if_pos rfl, List.nil_append, Bool.not_true, blockLines_end hk hrest (hend hlast),
      hb'.finish_keep]
  · rw [hlast] at hb'
    refine ⟨.clip, hhint, q.line, ?_⟩
    rw [hlast, if_pos rfl, List.nil_append, Bool.not_true, blockLines_end hk hrest (hend hlast),
      hb'.finish_clip htext (isBreak_of_not_endsLine hd)]

/-- A literal block inside a collection that is indented by two columns less is read as the text
that was written, up to a line that is not indented as deep. -/
theorem literal_written {parent : Nat} (hshown : ∀ d ∈ c :: cs, isShown d = true)
    (hk : k < parent + 2) (hrest : Resumes rest) (p : Spot) :
    ∃ line, blockScalar false parent (place p (indentationHint (c :: cs) ++
        (chompingHint (c :: cs) ++ '\n' :: (literalChars (parent + 2) true (c :: cs) ++
          ((if endsBroken false (c :: cs) then [] else ['\n']) ++ (spaces k ++ rest)))))) =
      .ok (c :: cs, place ⟨line, k⟩ rest) := by
  obtain ⟨hhint, _⟩ | ⟨hhint, hspace, hends⟩ := indentationHint_cases c cs
  · obtain ⟨chomping, hchomping, line, hread⟩ :=
      blockLines_written (p := ⟨p.line + 1, 0⟩) true hshown
      .nil (fun _ ↦ rfl) hk hrest rfl
    rw [List.nil_append, Bool.not_true] at *
    refine ⟨line, ?_⟩
    rw [hhint, hchomping, List.singleton_append, blockScalar, blockHeader_two]
    simp only [bind, Except.bind]
    rw [show (max (parent : Int) 0).toNat = parent by omega]
    exact hread
  · have hc := hshown c List.mem_cons_self
    have hbreak : isBreak c = false := by rw [← endsLine_of_isShown hc, hends]
    obtain ⟨chomping, hchomping, line, hread⟩ := blockLines_written
      (p := ⟨p.line + 1, parent + 2 + 1⟩) false
        (fun d (hd : d ∈ cs) ↦ hshown d (List.mem_cons_of_mem c hd))
      (BlockLines.Holds.nil.startLine c) (fun h ↦ absurd h Bool.false_ne_true) hk hrest (by
        rw [List.nil_append, List.singleton_append, endsBroken_cons, hends])
    rw [List.nil_append, List.singleton_append] at hchomping hread
    refine ⟨line, ?_⟩
    rw [hhint, List.nil_append, hchomping, blockScalar, blockHeader_plain]
    simp only [bind, Except.bind]
    rw [literalChars_char true hends, indentation, if_pos rfl, List.append_assoc, List.cons_append,
      leadingLines_spaces hc hspace hbreak]
    have hindent : max (max 0 (0 + (parent + 2))) (max ((parent : Int) + 1).toNat 1) =
        parent + 2 := by
      omega
    simp only
    rw [hindent, Nat.zero_add, blockLines_first hbreak]
    exact hread

end ApiManifest.Yaml
