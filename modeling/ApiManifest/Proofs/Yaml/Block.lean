import ApiManifest.Proofs.Yaml.Flow
import ApiManifest.Proofs.Yaml.Scalar.Double
import ApiManifest.Proofs.Yaml.Scalar.Literal
import ApiManifest.Proofs.Yaml.Scalar.Single
import Mathlib.Data.Bool.AllAny

/-!
The scanner inside block collections. `Stands` is what its state is before a token there, with the
gap before the token passed: no mark of a key is left over from the tokens before. A key with its
colon takes the scanner to the value (`Stands.key`), a scalar in the style in which a text is
written to the next line (`Stands.scalar`), and a dash to the item (`Stands.dash`).
-/

set_option autoImplicit false
set_option relaxedAutoImplicit false

namespace ApiManifest.Yaml.Scanner

/-- What a scanner is outside of flow collections, where the open block collections have the given
indentations and the next token starts at a place. -/
structure Stands (s : Scanner) (indent : Int) (indents : List Int) (keyAllowed : Bool) (p : Spot)
    (cs : List Char) : Prop where
  counted : s.count = s.tokens.length
  outside : s.marks = []
  unmarked : s.mark = none
  indent_eq : s.indent = indent
  indents_eq : s.indents = indents
  ahead : dropGap false s.keyAllowed false s.rest = (place p cs, keyAllowed)

variable {s s' t : Scanner} {indent : Int} {indents : List Int} {keyAllowed : Bool} {p : Spot}
  {c : Char} {cs rest : List Char} {k : Nat}

/-- A block collection that is not indented deeper than the column stays open. -/
theorem unroll_of_le {column : Int} (hcolumn : s.indent ≤ column) : s.unroll column = s := by
  have hopen : ¬ column < s.indent := Int.not_lt.mpr hcolumn
  unfold unroll
  split_ifs
  · rfl
  · obtain ⟨rest, tokens, count, indent, indents, keyAllowed, mark, marks⟩ := s
    cases indents with
    | nil => rfl
    | cons outer indents => rw [closeBlocks, if_neg hopen]

/-- A gap ends where a token starts. -/
theorem dropGap_of_resumes (hrest : Resumes rest) (flow keyAllowed : Bool) (p : Spot) :
    dropGap flow keyAllowed false (place p rest) = (place p rest, keyAllowed) := by
  cases rest with
  | nil => rfl
  | cons c rest => exact dropGap_of_startsToken (hrest c rfl) flow keyAllowed p rest

/-- A gap goes on over spaces. -/
theorem dropGap_spaces {rest : List Char} (hrest : Resumes rest) (keyAllowed : Bool) :
    dropGap false keyAllowed false (place p (spaces k ++ rest)) =
      (place ⟨p.line, p.column + k⟩ rest, keyAllowed) := by
  induction k generalizing p with
  | zero => exact dropGap_of_resumes hrest false keyAllowed p
  | succ k ih =>
    have hnext : p.after ' ' = ⟨p.line, p.column + 1⟩ := rfl
    rw [spaces, List.replicate_succ, List.cons_append, place_cons, dropGap, hnext, ← spaces, ih,
      Nat.add_right_comm, Nat.add_assoc]
    rfl

/-- On a new line a key may start. -/
theorem dropGap_line (hrest : Resumes rest) (keyAllowed : Bool) :
    dropGap false keyAllowed false (place p ('\n' :: (spaces k ++ rest))) =
      (place ⟨p.line + 1, k⟩ rest, true) := by
  have hnext : p.after '\n' = ⟨p.line + 1, 0⟩ := rfl
  rw [place_cons, dropGap, hnext]
  simp only [show isBreak '\n' = true from rfl, if_true, Bool.not_false, Bool.or_true]
  rw [dropGap_spaces hrest, Nat.zero_add]

namespace Stands

theorem inFlow (hs : Stands s indent indents keyAllowed p cs) : s.inFlow = false := by
  rw [Scanner.inFlow, hs.outside]
  rfl

/-- The scanner at the token that comes next. -/
def arrived (s : Scanner) (keyAllowed : Bool) (p : Spot) (cs : List Char) : Scanner :=
  { s with rest := place p cs, keyAllowed }

/-- A token is read where the scanner stands, once the blocks that end before it are closed. -/
theorem steps (hs : Stands s indent indents keyAllowed p (c :: cs))
    (htoken : ((arrived s keyAllowed p (c :: cs)).unroll p.column).token ⟨c, p.line, p.column⟩
      (place (p.after c) cs) = .ok s') (hlength : s'.rest.length ≤ cs.length) : Steps s s' := by
  have hahead : dropGap s.inFlow s.keyAllowed false s.rest = (place p (c :: cs), keyAllowed) := by
    rw [hs.inFlow, hs.ahead]
  rw [← length_place (p.after c)] at hlength
  refine Steps.token hahead ?_ htoken hlength
  have hmark := hs.unmarked
  have hmarks := hs.outside
  obtain ⟨srest, tokens, count, indent, indents, allowed, mark, marks⟩ := s
  obtain rfl : mark = none := hmark
  obtain rfl : marks = [] := hmarks
  rfl

/-- A token that closes no block is read where the scanner stands. -/
theorem steps_of_le (hs : Stands s indent indents keyAllowed p (c :: cs))
    (hcolumn : indent ≤ p.column)
    (htoken : (arrived s keyAllowed p (c :: cs)).token ⟨c, p.line, p.column⟩
      (place (p.after c) cs) = .ok s') (hlength : s'.rest.length ≤ cs.length) : Steps s s' := by
  refine hs.steps ?_ hlength
  rw [unroll_of_le]
  · exact htoken
  · exact hs.indent_eq.trans_le hcolumn

end Stands

/-! ### Plain scalars -/

/-- A plain scalar that starts outside of flow collections is a token. -/
theorem token_plain_block {r : PlainScalar} (hmarks : s.marks = []) (hblank : isBlank c = false)
    (hopening : isOpening c = false)
    (hseparates : ((c == '?' || c == ':' || c == '-') && opensGap cs) = false)
    (hmark : documentMarkAhead (place p (c :: cs)) = false)
    (hsave : s.saveMark ⟨c, p.line, p.column⟩ = .ok t) (houtside : t.inFlow = false)
    (hread : plainScalar false (t.indent + 1) [] .empty false (place p (c :: cs)) = .ok r) :
    s.token ⟨c, p.line, p.column⟩ (place (p.after c) cs) = .ok
      { t with
        rest := r.rest, tokens := .scalar .plain (String.ofList r.text) :: t.tokens
        count := t.count + 1, keyAllowed := r.lineEnded } := by
  rw [documentMarkAhead, Bool.or_eq_false_iff, place_cons] at hmark
  have hne (d : Char) (hd : isOpening d = true) : c ≠ d := by
    rintro rfl
    rw [hopening] at hd
    exact Bool.false_ne_true hd
  have hflow : s.inFlow = false := by rw [Scanner.inFlow, hmarks]; rfl
  have hgap : gapAhead (place (p.after c) cs) = opensGap cs := gapAhead_place _ _
  have hstart : (!(isBlank c || isIndicator c) || c == '-' || ((c == '?' || c == ':') && true)) =
      true := by
    by_contra h
    simp only [hblank, Bool.false_or, Bool.and_true, Bool.or_eq_true, Bool.not_eq_true',
      beq_iff_eq, not_or, Bool.not_eq_false] at h
    have hall : ∀ d ∈ "-?:,[]\x7b\x7d#&*!|>'\"%@".toList ++ ['\x60'],
        isOpening d = true ∨ d = '-' ∨ d = '?' ∨ d = ':' :=
      List.all_iff_forall_prop.mp (by decide)
    have hmem : c ∈ "-?:,[]\x7b\x7d#&*!|>'\"%@".toList ++ ['\x60'] := by
      simpa [isIndicator, or_assoc] using h.1.1
    rcases hall c hmem with hc | hc | hc | hc
    · exact hne c hc rfl
    · exact h.1.2 hc
    · exact h.2.1 hc
    · exact h.2.2 hc
  have hentry : (c == '-' && opensGap cs) = false ∧ (c == '?' && opensGap cs) = false ∧
      (c == ':' && opensGap cs) = false := by
    cases hcs : opensGap cs with
    | false => simp
    | true =>
      rw [hcs, Bool.and_true, Bool.or_eq_false_iff, Bool.or_eq_false_iff] at hseparates
      simp only [hseparates, Bool.and_true, and_self]
  have hblock : (c == '|' || c == '>') = false := by
    rw [beq_eq_false_iff_ne.mpr (hne '|' rfl), beq_eq_false_iff_ne.mpr (hne '>' rfl), Bool.or_self]
  rw [place_cons] at hread
  rw [token]
  simp only [hmark, beq_eq_false_iff_ne.mpr (hne '%' rfl), Bool.and_false, Bool.false_eq_true,
    if_false]
  split
  case h_11 =>
    simp only [hgap, hflow, Bool.false_or, hentry, hblock, Bool.false_and, Bool.false_eq_true,
      if_false, Bool.not_false, hstart, if_true, hsave, bind, Except.bind, houtside, hread]
    rfl
  all_goals exact absurd rfl (hne _ rfl)

/-- A plain scalar after a key is a value: no key may start there. -/
theorem saveMark_of_value (hs : s.keyAllowed = false) (g : Glyph) : s.saveMark g = .ok s := by
  rw [saveMark, hs]
  rfl

/-- The mark that a key leaves: at the indentation of its block only a key may stand. -/
theorem saveMark_of_key (hmarks : s.marks = []) (hmark : s.mark = none) (hs : s.keyAllowed = true)
    (g : Glyph) :
    s.saveMark g = .ok { s with
      mark := some ⟨s.count, g.line, g.column, s.indent == (g.column : Int)⟩ } := by
  obtain ⟨rest, tokens, count, indent, indents, keyAllowed, mark, marks⟩ := s
  obtain rfl : marks = [] := hmarks
  obtain rfl : mark = none := hmark
  obtain rfl : keyAllowed = true := hs
  rfl

/-! ### Keys -/

/-- Holds of texts of lower case letters, as which keys are written. -/
def IsWord (cs : List Char) : Prop := ∀ c ∈ cs, c.isLower = true

theorem letter_starts (hc : c.isLower = true) :
    StartsToken c ∧ isOpening c = false ∧ c ≠ '-' ∧ c ≠ '.' ∧ c ≠ ':' ∧ c ≠ '?' := by
  have hne (d : Char) (hd : d.isLower = false) : c ≠ d := by
    rintro rfl
    rw [hd] at hc
    exact Bool.false_ne_true hc
  have hopening : isOpening c = false := by
    rw [isOpening, Bool.or_eq_false_iff]
    have hall : ∀ d ∈ "#,[]\x7b\x7d&*!|>'\"%@".toList, d.isLower = false :=
      List.all_iff_forall_prop.mp (by decide)
    refine ⟨?_, beq_eq_false_iff_ne.mpr (hne _ rfl)⟩
    rw [← Bool.not_eq_true, List.contains_iff_mem]
    exact fun hmem ↦ hne c (hall c hmem) rfl
  refine ⟨⟨?_, ?_, hne _ rfl, hne _ rfl⟩, hopening, hne _ rfl, hne _ rfl, hne _ rfl, hne _ rfl⟩
  · rw [isBreak, beq_eq_false_iff_ne.mpr (hne '\n' rfl), beq_eq_false_iff_ne.mpr (hne '\u2028' rfl),
      beq_eq_false_iff_ne.mpr (hne '\u2029' rfl), Bool.or_self, Bool.or_self]
  · rw [isBlank, beq_eq_false_iff_ne.mpr (hne ' ' rfl), beq_eq_false_iff_ne.mpr (hne '\t' rfl),
      Bool.or_self]

/-- A word is read up to the colon that makes it a key. -/
theorem plainScalar_word (least : Int) (word read : List Char) (hword : IsWord word) (p : Spot)
    (hgap : opensGap cs = true) :
    plainScalar false least read .empty false (place p (word ++ ':' :: cs)) =
      .ok ⟨read.reverse ++ word, place (p.past word) (':' :: cs), false⟩ := by
  induction word generalizing read p with
  | nil =>
    have hmark := documentMarkAhead_place p (':' :: cs)
    rw [opensDocumentMark_cons_of_ne (by decide) (by decide), Bool.and_false, place_cons] at hmark
    rw [List.nil_append, place_cons, plainScalar]
    simp only [isBlank, isBreak, hmark, gapAhead_place, hgap, List.append_nil, Spot.past_nil,
      place_cons]
    rfl
  | cons c word ih =>
    obtain ⟨⟨hbreak, hblank, _, _⟩, _, hhyphen, hdot, hcolon, _⟩ :=
      letter_starts (hword c List.mem_cons_self)
    have hmark := documentMarkAhead_place p (c :: (word ++ ':' :: cs))
    rw [opensDocumentMark_cons_of_ne hhyphen hdot, Bool.and_false, place_cons] at hmark
    rw [List.cons_append, place_cons, plainScalar]
    simp only [hblank, hbreak, hmark, beq_eq_false_iff_ne.mpr hcolon, Bool.false_and,
      Bool.and_false, Bool.or_self, Bool.false_eq_true, if_false]
    rw [show Gap.empty.flush read = read from rfl,
      ih (c :: read) (fun d hd ↦ hword d (List.mem_cons_of_mem c hd)), Spot.past_cons]
    simp

section

variable {word ds : List Char} {r : Spot} {allowed : Bool}

/-- The scanner before the colon of a key. -/
def keyed (s : Scanner) (p : Spot) (word cs : List Char) : Scanner :=
  { s with
    rest := place (p.past word) (':' :: cs)
    tokens := .scalar .plain (String.ofList word) :: s.tokens
    count := s.count + 1
    keyAllowed := false
    mark := some ⟨s.count, p.line, p.column, s.indent == (p.column : Int)⟩ }

theorem past_word (hword : IsWord word) (p : Spot) :
    p.past word = ⟨p.line, p.column + word.length⟩ :=
  p.past_of_line fun c hc ↦ (letter_starts (hword c hc)).1.1

/-- The word of a key is read. -/
theorem steps_word (hs : Stands s indent indents true p (word ++ ':' :: cs)) (hword : IsWord word)
    (hne : word ≠ []) (hgap : opensGap cs = true) (hcolumn : indent ≤ p.column) :
    Steps s (keyed s p word cs) := by
  obtain ⟨c, more, rfl⟩ := List.exists_cons_of_ne_nil hne
  rw [List.cons_append] at hs
  obtain ⟨⟨_, hblank, _, _⟩, hopening, hhyphen, hdot, hcolon, hquestion⟩ :=
    letter_starts (hword c List.mem_cons_self)
  have hseparates :
      ((c == '?' || c == ':' || c == '-') && opensGap (more ++ ':' :: cs)) = false := by
    rw [beq_eq_false_iff_ne.mpr hhyphen, beq_eq_false_iff_ne.mpr hcolon,
      beq_eq_false_iff_ne.mpr hquestion]
    rfl
  have hmark : documentMarkAhead (place p (c :: (more ++ ':' :: cs))) = false := by
    rw [documentMarkAhead_place, opensDocumentMark_cons_of_ne hhyphen hdot, Bool.and_false]
  refine hs.steps_of_le hcolumn (?_ : _ = Except.ok (keyed s p (c :: more) cs)) ?_
  · have houtside : (Stands.arrived s true p (c :: (more ++ ':' :: cs))).marks = [] := hs.outside
    have hread := plainScalar_word (s.indent + 1) (c :: more) [] hword p hgap
    exact token_plain_block houtside hblank hopening hseparates hmark
      (saveMark_of_key houtside hs.unmarked rfl _) hs.inFlow hread
  · simp only [keyed, length_place, List.length_append, List.length_cons]
    omega

/-- The colon of a key is read. -/
theorem steps_colon (hs : Stands s indent indents true p (word ++ ':' :: cs)) (hword : IsWord word)
    (hlength : word.length ≤ 1024) (hgap : opensGap cs = true) (hcolumn : indent ≤ p.column)
    (hvalue : (keyed s p word cs).valueEntry ⟨':', (p.past word).line, (p.past word).column⟩ =
      .ok t) :
    Steps (keyed s p word cs) { t with rest := place ((p.past word).after ':') cs } := by
  have hflow : (keyed s p word cs).inFlow = false := hs.inFlow
  have hahead : dropGap (keyed s p word cs).inFlow false false (place (p.past word) (':' :: cs)) =
      (place (p.past word) (':' :: cs), false) :=
    dropGap_of_startsToken ⟨rfl, rfl, by decide, by decide⟩ _ _ _ _
  have hmarks : (keyed s p word cs).expireMarks ⟨':', (p.past word).line, (p.past word).column⟩ =
      .ok (keyed s p word cs) := by
    have houtside := hs.outside
    obtain ⟨srest, tokens, count, indent, indents, keyAllowed, mark, marks⟩ := s
    obtain rfl : marks = [] := houtside
    have hlive :
        (p.line < p.line || decide (p.column + 1024 < p.column + word.length)) = false := by
      simp only [lt_irrefl, decide_false, Bool.false_or, decide_eq_false_iff_not]
      omega
    simp only [expireMarks, keyed, past_word hword, expire, hlive, Bool.false_eq_true, if_false]
    rfl
  refine Steps.token (s := keyed s p word cs) hahead hmarks ?_ ?_
  · rw [unroll_of_le]
    · have hcolon : gapAhead (place ((p.past word).after ':') cs) = true := by
        rw [gapAhead_place, hgap]
      simp [token, markAhead_of_ne, hflow, hcolon, hvalue]
    · rw [past_word hword]
      simp only [keyed, hs.indent_eq]
      push_cast
      omega
  · rfl

/-- A key at the indentation of its block leads to its value. -/
theorem Stands.key (hs : Stands s p.column indents true p (word ++ ':' :: cs)) (hword : IsWord word)
    (hne : word ≠ []) (hlength : word.length ≤ 1024) (hgap : opensGap cs = true)
    (hahead : dropGap false false false (place ((p.past word).after ':') cs) =
      (place r ds, allowed)) :
    ∃ s', Steps s s' ∧ Stands s' p.column indents allowed r ds ∧
      s'.tokens = .value :: .scalar .plain (String.ofList word) :: .key :: s.tokens := by
  have hvalue : (keyed s p word cs).valueEntry ⟨':', (p.past word).line, (p.past word).column⟩ = .ok
      { s with
        rest := place (p.past word) (':' :: cs)
        tokens := .value :: .scalar .plain (String.ofList word) :: .key :: s.tokens
        count := s.count + 3, keyAllowed := false, mark := none } := by
    have hlater : s.count + 1 - s.count = 1 := by omega
    simp [valueEntry, keyed, insertAt, roll, push, hlater, hs.indent_eq]
  refine ⟨_, (steps_word hs hword hne hgap le_rfl).trans
    (steps_colon hs hword hlength hgap le_rfl hvalue),
    ⟨?_, hs.outside, rfl, hs.indent_eq, hs.indents_eq, hahead⟩, rfl⟩
  simp only [List.length_cons, hs.counted]

/-- A key that stands deeper than the block around it opens a mapping and leads to its value. -/
theorem Stands.firstKey (hs : Stands s indent indents true p (word ++ ':' :: cs))
    (hword : IsWord word)
    (hne : word ≠ []) (hlength : word.length ≤ 1024) (hgap : opensGap cs = true)
    (hcolumn : indent < p.column)
    (hahead : dropGap false false false (place ((p.past word).after ':') cs) =
      (place r ds, allowed)) :
    ∃ s', Steps s s' ∧ Stands s' p.column (indent :: indents) allowed r ds ∧
      s'.tokens = .value :: .scalar .plain (String.ofList word) :: .key :: .blockMappingStart ::
        s.tokens := by
  have hflow : s.inFlow = false := hs.inFlow
  have hvalue : (keyed s p word cs).valueEntry ⟨':', (p.past word).line, (p.past word).column⟩ = .ok
      { s with
        rest := place (p.past word) (':' :: cs)
        tokens := .value :: .scalar .plain (String.ofList word) :: .key :: .blockMappingStart ::
          s.tokens
        count := s.count + 4, keyAllowed := false, mark := none
        indent := p.column, indents := s.indent :: s.indents } := by
    have hlater : s.count + 1 - s.count = 1 := by omega
    have hlater' : s.count + 1 + 1 - s.count = 2 := by omega
    have hmarks : s.marks = [] := hs.outside
    simp [valueEntry, keyed, insertAt, roll, push, hlater, hlater', hs.indent_eq, hcolumn,
      Scanner.inFlow, hmarks]
  refine ⟨_, (steps_word hs hword hne hgap hcolumn.le).trans
    (steps_colon hs hword hlength hgap hcolumn.le hvalue),
    ⟨?_, hs.outside, rfl, rfl, ?_, hahead⟩, rfl⟩
  · simp only [List.length_cons, hs.counted]
  · rw [hs.indent_eq, hs.indents_eq]

end

/-! ### Values -/

section

variable {parent : Nat} {text : List Char}

/-- The scanner has read a scalar with the given text and stands on a later line. -/
def ReadsScalar (s : Scanner) (indent : Int) (indents : List Int) (k : Nat) (rest : List Char)
    (style : ScalarStyle) (text : List Char) : Prop :=
  ∃ s' line, Steps s s' ∧ Stands s' indent indents true ⟨line, k⟩ rest ∧
    s'.tokens = .scalar style (String.ofList text) :: s.tokens

theorem Stands.plain (hs : Stands s parent indents false p (text ++ '\n' :: (spaces k ++ rest)))
    (hp : parent < p.column) (hk : k ≤ parent) (hrest : Resumes rest) (hne : text ≠ [])
    (htext : plainAllowed text = true) : ReadsScalar s parent indents k rest .plain text := by
  obtain ⟨c, cs, rfl⟩ := List.exists_cons_of_ne_nil hne
  obtain ⟨hshown, hspace, _, hopening, hseparates, _⟩ := plainAllowed_cons htext
  obtain ⟨hc, hends⟩ := hshown c List.mem_cons_self
  have hcolumn : p.column ≠ 0 := by omega
  have hblank : isBlank c = false := by
    rw [isBlank_of_isShown hc, beq_eq_false_iff_ne.mpr hspace]
  have hstart : ((c == '?' || c == ':' || c == '-') &&
      opensGap (cs ++ '\n' :: (spaces k ++ rest))) = false := by
    cases hgap : opensGap (cs ++ '\n' :: (spaces k ++ rest)) with
    | false => rw [Bool.and_false]
    | true =>
      rw [separates_of_opensGap hgap] at hseparates
      exact hseparates
  have hdeeper : (k : Int) < (parent : Int) + 1 := by omega
  have hread := plainScalar_written (k := k) (p := p) htext hdeeper hrest hcolumn (by omega)
  rw [List.cons_append] at hs hread
  have hindent : s.indent + 1 = (parent : Int) + 1 := by rw [hs.indent_eq]
  rw [← hindent] at hread
  have htoken := token_plain_block
    (s := arrived s false p (c :: (cs ++ '\n' :: (spaces k ++ rest))))
    hs.outside hblank hopening hstart (documentMarkAhead_off_margin hcolumn _)
    (saveMark_of_value rfl _) hs.inFlow hread
  refine ⟨_, p.line + 1, hs.steps_of_le (by omega) htoken ?_,
    ⟨?_, hs.outside, hs.unmarked, hs.indent_eq, hs.indents_eq, dropGap_of_resumes hrest _ _ _⟩, rfl⟩
  · simp only [length_place, List.length_append, List.length_cons]
    omega
  · exact congrArg (· + 1) hs.counted

/-- A quoted scalar is a token, and its line ends after it. -/
theorem Stands.of_quoted {q : Spot} (hs : Stands s parent indents false p (c :: cs))
    (hp : parent ≤ p.column) (hrest : Resumes rest)
    (htoken : (arrived s false p (c :: cs)).token ⟨c, p.line, p.column⟩ (place (p.after c) cs) = .ok
      { arrived s false p (c :: cs) with
        rest := place q ('\n' :: (spaces k ++ rest))
        tokens := .scalar .marked (String.ofList text) :: s.tokens, count := s.count + 1 })
    (hlength : ('\n' :: (spaces k ++ rest)).length ≤ cs.length) :
    ReadsScalar s parent indents k rest .marked text := by
  refine ⟨_, q.line + 1, hs.steps_of_le (by omega) htoken ?_,
    ⟨?_, hs.outside, hs.unmarked, hs.indent_eq, hs.indents_eq, dropGap_line hrest false⟩, rfl⟩
  · rw [length_place]
    exact hlength
  · exact congrArg (· + 1) hs.counted

theorem Stands.single {width : Nat} (hwidth : 0 < width)
    (hs : Stands s parent indents false p
      ('\'' :: (singleChars width false text ++ '\'' :: '\n' :: (spaces k ++ rest))))
    (hp : parent < p.column) (hrest : Resumes rest) (htext : singleAllowed text = true)
    (hfeed : '\n' ∉ text) : ReadsScalar s parent indents k rest .marked text := by
  have hread := singleQuoted_written (p := p.after '\'') hwidth htext hfeed (Nat.succ_ne_zero _)
    (spaces k ++ rest)
  refine hs.of_quoted hp.le hrest
    (q := (p.after '\'').past (singleChars width false text ++ ['\''])) ?_ ?_
  · simp [token, markAhead_of_ne, saveMark_of_value, arrived, hread, take, Scanner.push, bind,
      Except.bind, pure, Except.pure]
  · simp only [List.length_append, List.length_cons]
    omega

theorem Stands.double
    (hs : Stands s parent indents false p
      ('"' :: (text.flatMap doubleChar ++ '"' :: '\n' :: (spaces k ++ rest))))
    (hp : parent < p.column) (hrest : Resumes rest) :
    ReadsScalar s parent indents k rest .marked text := by
  have hread := doubleQuoted_written text ('\n' :: (spaces k ++ rest)) (p.after '"')
    (Nat.succ_ne_zero _)
  refine hs.of_quoted hp.le hrest (q := (p.after '"').past (text.flatMap doubleChar ++ ['"'])) ?_ ?_
  · simp [token, markAhead_of_ne, saveMark_of_value, arrived, hread, take, Scanner.push, bind,
      Except.bind, pure, Except.pure]
  · simp only [List.length_append, List.length_cons]
    omega

theorem Stands.literal
    (hs : Stands s parent indents false p
      ('|' :: (indentationHint text ++ (chompingHint text ++ '\n' ::
        (literalChars (parent + 2) true text ++
          ((if endsBroken false text then [] else ['\n']) ++ (spaces k ++ rest)))))))
    (hp : parent < p.column) (hk : k ≤ parent) (hrest : Resumes rest) (hne : text ≠ [])
    (hshown : ∀ c ∈ text, isShown c = true) :
    ReadsScalar s parent indents k rest .marked text := by
  obtain ⟨c, cs, htext⟩ := List.exists_cons_of_ne_nil hne
  have hbelow : k < parent + 2 := by omega
  obtain ⟨line, hread⟩ := literal_written (htext ▸ hshown) hbelow hrest (p.after '|')
  rw [← htext] at hread
  have hflow : s.inFlow = false := hs.inFlow
  have hmark : s.mark = none := hs.unmarked
  generalize hbody : indentationHint text ++ (chompingHint text ++ '\n' ::
    (literalChars (parent + 2) true text ++
      ((if endsBroken false text then [] else ['\n']) ++ (spaces k ++ rest)))) = body at hs hread
  have htoken : (arrived s false p ('|' :: body)).token ⟨'|', p.line, p.column⟩
      (place (p.after '|') body) = .ok
        { arrived s false p ('|' :: body) with
          rest := place ⟨line, k⟩ rest
          tokens := .scalar .marked (String.ofList text) :: s.tokens
          count := s.count + 1, keyAllowed := true } := by
    have hflow' : (arrived s false p ('|' :: body)).inFlow = false := hflow
    have hdrop : (arrived s false p ('|' :: body)).dropMarkHere =
        .ok (arrived s false p ('|' :: body)) := by
      simp only [dropMarkHere, arrived, hmark]
    have hindent : (arrived s false p ('|' :: body)).indent = parent := hs.indent_eq
    simp [token, markAhead_of_ne, hflow', hdrop, hindent, hread, take, Scanner.push, bind,
      Except.bind, pure, Except.pure]
    exact ⟨rfl, rfl⟩
  refine ⟨_, line, hs.steps_of_le (by omega) htoken ?_,
    ⟨?_, hs.outside, hs.unmarked, hs.indent_eq, hs.indents_eq, dropGap_of_resumes hrest _ _ _⟩, rfl⟩
  · rw [length_place, ← hbody]
    simp only [List.length_append, List.length_cons]
    omega
  · exact congrArg (· + 1) hs.counted

/-- How a text that is written as a scalar is marked. -/
def writtenMark (s : String) : ScalarStyle :=
  if writtenStyle s = .plain then .plain else .marked

/-- A text that is written as a scalar is read as that text, in whatever style it is written. -/
theorem Stands.scalar {value : String}
    (hs : Stands s parent indents false p (scalarChars (parent + 2) value ++
      ((if writtenStyle value == .literal && endsBroken false value.toList then [] else ['\n']) ++
        (spaces k ++ rest))))
    (hp : parent < p.column) (hk : k ≤ parent) (hrest : Resumes rest) :
    ReadsScalar s parent indents k rest (writtenMark value) value.toList := by
  unfold scalarChars at hs
  obtain ⟨hstyle, hne, hshown⟩ | hstyle | ⟨hstyle, hne, hplain⟩ | ⟨hstyle, hfeed, hsingle⟩ :=
    writtenStyle_cases value
  · rw [writtenMark, hstyle]
    rw [hstyle] at hs
    refine Stands.literal ?_ hp hk hrest hne hshown
    simpa using hs
  · rw [writtenMark, hstyle]
    rw [hstyle] at hs
    refine Stands.double ?_ hp hrest
    simpa using hs
  · rw [writtenMark, hstyle]
    rw [hstyle] at hs
    refine Stands.plain ?_ hp hk hrest hne hplain
    simpa using hs
  · rw [writtenMark, hstyle]
    rw [hstyle] at hs
    refine Stands.single (Nat.succ_pos (parent + 1)) ?_ hp hrest hsingle hfeed
    simpa using hs

/-- A scalar starts with a token, after which it is told. -/
theorem resumes_scalarChars (width : Nat) (value : String) (rest : List Char) :
    Resumes (scalarChars width value ++ rest) := by
  have hhead {c : Char} {cs : List Char} (hc : StartsToken c) : Resumes (c :: cs) :=
    fun d hd ↦ Option.some.inj hd ▸ hc
  unfold scalarChars
  obtain ⟨hstyle, _⟩ | hstyle | ⟨hstyle, hne, hplain⟩ | ⟨hstyle, _⟩ := writtenStyle_cases value
  · rw [hstyle]
    exact hhead ⟨rfl, rfl, by decide, by decide⟩
  · rw [hstyle]
    exact hhead ⟨rfl, rfl, by decide, by decide⟩
  · rw [hstyle]
    obtain ⟨c, cs, hcs⟩ := List.exists_cons_of_ne_nil hne
    rw [hcs] at hplain
    obtain ⟨hshown, hspace, _, hopening, _⟩ := plainAllowed_cons hplain
    obtain ⟨hc, hends⟩ := hshown c List.mem_cons_self
    simp only [hcs, List.cons_append]
    refine hhead ⟨isBreak_of_not_endsLine hends, ?_, ?_, ?_⟩
    · rw [isBlank_of_isShown hc, beq_eq_false_iff_ne.mpr hspace]
    · rintro rfl
      exact absurd hopening (by decide)
    · rintro rfl
      exact absurd hc (by decide)
  · rw [hstyle]
    exact hhead ⟨rfl, rfl, by decide, by decide⟩

end

/-! ### Items and the end -/

section

variable {line : Nat} {outer : List Int} {closed : List Token}

/-- The scanner when the blocks that end before a column are closed. -/
def shut (s : Scanner) (closed : List Token) (indent : Int) (indents : List Int) : Scanner :=
  { s with tokens := closed ++ s.tokens, count := s.count + closed.length, indent, indents }

/-- A dash at the indentation that is left when deeper blocks are closed leads to an item. -/
theorem Stands.dash (closed : List Token)
    (hs : Stands s indent indents true ⟨line, 0⟩ ('-' :: ' ' :: cs)) (hcs : Resumes cs)
    (hunroll : (arrived s true ⟨line, 0⟩ ('-' :: ' ' :: cs)).unroll 0 =
      shut (arrived s true ⟨line, 0⟩ ('-' :: ' ' :: cs)) closed 0 outer) :
    ∃ s', Steps s s' ∧ Stands s' 0 outer true ⟨line, 2⟩ cs ∧
      s'.tokens = .blockEntry :: (closed ++ s.tokens) := by
  have hmark : markAhead '-' (place ⟨line, 0⟩ ('-' :: ' ' :: cs)) = false := by
    rw [markAhead_place]
    rfl
  have hflow : (shut (arrived s true ⟨line, 0⟩ ('-' :: ' ' :: cs)) closed 0 outer).inFlow = false :=
    hs.inFlow
  have hentry : blockEntry ⟨'-', line, 0⟩
      (shut (arrived s true ⟨line, 0⟩ ('-' :: ' ' :: cs)) closed 0 outer) = .ok
        ((shut (arrived s true ⟨line, 0⟩ ('-' :: ' ' :: cs)) closed 0 outer).push .blockEntry) := by
    have hunmarked : s.mark = none := hs.unmarked
    have hallowed : (shut (arrived s true ⟨line, 0⟩ ('-' :: ' ' :: cs)) closed 0 outer).keyAllowed =
        true := rfl
    rw [blockEntry, hflow, hallowed]
    simp [roll, shut, dropMarkHere, arrived, hunmarked, bind, Except.bind, pure, Except.pure,
      Scanner.push]
  have htoken : ((arrived s true ⟨line, 0⟩ ('-' :: ' ' :: cs)).unroll 0).token ⟨'-', line, 0⟩
      (place ⟨line, 1⟩ (' ' :: cs)) = .ok
        { (shut (arrived s true ⟨line, 0⟩ ('-' :: ' ' :: cs)) closed 0 outer).push .blockEntry with
          rest := place ⟨line, 1⟩ (' ' :: cs) } := by
    have hgap : gapAhead (place ⟨line, 1⟩ (' ' :: cs)) = true := rfl
    rw [place_cons, show (⟨line, 0⟩ : Spot).after '-' = ⟨line, 1⟩ from rfl] at hmark
    rw [hunroll, token]
    generalize place ⟨line, 1⟩ (' ' :: cs) = ahead at hmark hgap ⊢
    simp [hmark, markAhead_of_ne, hentry, hgap]
  refine ⟨_, hs.steps htoken (Nat.le_of_eq (length_place _ _)),
    ⟨?_, hs.outside, hs.unmarked, rfl, rfl, ?_⟩, rfl⟩
  · simp only [shut, Scanner.push, arrived, List.length_cons, List.length_append, hs.counted]
    omega
  · exact dropGap_of_resumes hcs false true ⟨line, 2⟩

/-- A dash at the indentation of the block leads to an item. -/
theorem Stands.firstDash (hs : Stands s 0 indents true ⟨line, 0⟩ ('-' :: ' ' :: cs))
    (hcs : Resumes cs) :
    ∃ s', Steps s s' ∧ Stands s' 0 indents true ⟨line, 2⟩ cs ∧
      s'.tokens = .blockEntry :: s.tokens := by
  refine hs.dash [] hcs ?_
  have houtside := hs.outside
  have hindent := hs.indent_eq
  have hindents := hs.indents_eq
  obtain ⟨rest, tokens, count, indent, indents, keyAllowed, mark, marks⟩ := s
  obtain rfl : indent = 0 := hindent
  obtain rfl := hindents
  rw [unroll_of_le (Int.le_refl 0)]
  rfl

/-- A dash after a deeper block ends that block and leads to an item. -/
theorem Stands.nextDash (hs : Stands s 2 [0, -1] true ⟨line, 0⟩ ('-' :: ' ' :: cs))
    (hcs : Resumes cs) :
    ∃ s', Steps s s' ∧ Stands s' 0 [-1] true ⟨line, 2⟩ cs ∧
      s'.tokens = .blockEntry :: .blockEnd :: s.tokens := by
  refine hs.dash [.blockEnd] hcs ?_
  have houtside := hs.outside
  have hindent := hs.indent_eq
  have hindents := hs.indents_eq
  obtain ⟨rest, tokens, count, indent, indents, keyAllowed, mark, marks⟩ := s
  obtain rfl : marks = [] := houtside
  obtain rfl : indent = 2 := hindent
  obtain rfl : indents = [0, -1] := hindents
  rfl

end

/-- An empty flow sequence as a value is two tokens, and the line ends after it. -/
theorem Stands.emptySequence {parent : Nat} (k : Nat) (rest : List Char)
    (hs : Stands s parent indents false p ('[' :: ']' :: '\n' :: (spaces k ++ rest)))
    (hp : parent ≤ p.column) (hrest : Resumes rest) :
    ∃ s' line, Steps s s' ∧ Stands s' parent indents true ⟨line, k⟩ rest ∧
      s'.tokens = .flowSequenceEnd :: .flowSequenceStart :: s.tokens := by
  let opened : Scanner := { s with
    rest := place (p.after '[') (']' :: '\n' :: (spaces k ++ rest))
    tokens := .flowSequenceStart :: s.tokens, count := s.count + 1, keyAllowed := true
    mark := none, marks := [none] }
  let closed : Scanner := { s with
    rest := place ((p.after '[').after ']') ('\n' :: (spaces k ++ rest))
    tokens := .flowSequenceEnd :: .flowSequenceStart :: s.tokens, count := s.count + 2
    keyAllowed := false }
  have hmark := hs.unmarked
  have hmarks := hs.outside
  have hopen : Steps s opened := by
    refine hs.steps_of_le (by omega) ?_ (Nat.le_of_eq (length_place _ _))
    simp [token, markAhead_of_ne, saveMark_of_value, arrived, openFlow, Scanner.push, opened, hmark,
      hmarks]
  have hclose : Steps opened closed := by
    have hahead := dropGap_of_startsToken (c := ']') ⟨rfl, rfl, by decide, by decide⟩
      opened.inFlow true (p.after '[') ('\n' :: (spaces k ++ rest))
    have hexpire : opened.expireMarks ⟨']', p.line, p.column + 1⟩ = .ok opened := rfl
    refine Steps.token (s := opened) hahead hexpire ?_ ?_
    · rw [show ∀ column, opened.unroll column = opened from fun _ ↦ rfl]
      simp [token, markAhead_of_ne, closeFlow, dropMarkHere, Scanner.push, opened, closed, hmark,
        hmarks]
    · exact Nat.le_of_eq (by simp [closed])
  refine ⟨closed, _, hopen.trans hclose, ⟨?_, hs.outside, hs.unmarked, hs.indent_eq, hs.indents_eq,
    dropGap_line hrest false⟩, rfl⟩
  simp only [closed, List.length_cons, hs.counted]

/-- Holds when the tokens that are left are the given ones. -/
def Ends (s : Scanner) (ts : List Token) : Prop :=
  ∃ s', Steps s s' ∧ (dropGap s'.inFlow s'.keyAllowed false s'.rest).1 = [] ∧
    { s' with rest := [], keyAllowed := (dropGap s'.inFlow s'.keyAllowed false s'.rest).2 }.finish =
      .ok (s.tokens.reverse ++ ts)

theorem Ends.of_steps {ts : List Token} (us : List Token) (hsteps : Steps s s')
    (htokens : s'.tokens = us.reverse ++ s.tokens) (hends : Ends s' ts) : Ends s (us ++ ts) := by
  obtain ⟨t, hlast, hgap, hfinish⟩ := hends
  refine ⟨t, hsteps.trans hlast, hgap, ?_⟩
  rw [hfinish, htokens, List.reverse_append, List.reverse_reverse, List.append_assoc]

/-- At the end of the text the blocks that are left open end. -/
theorem Stands.ends {closed : List Token} (hs : Stands s indent indents keyAllowed p [])
    (hfinish : ∀ t : Scanner, t.marks = [] → t.mark = none → t.indent = indent →
      t.indents = indents →
      t.finish = .ok (t.tokens.reverse ++ closed)) : Ends s closed := by
  have hahead : dropGap s.inFlow s.keyAllowed false s.rest = ([], keyAllowed) := by
    rw [hs.inFlow]
    exact hs.ahead
  refine ⟨s, .refl s, by rw [hahead], ?_⟩
  rw [hahead]
  exact hfinish _ hs.outside hs.unmarked hs.indent_eq hs.indents_eq

/-- At the end of the text the mapping around it ends. -/
theorem Stands.endsMapping (hs : Stands s 0 [-1] keyAllowed p []) :
    Ends s [.blockEnd, .streamEnd] := by
  refine hs.ends fun t houtside hmark hindent hindents ↦ ?_
  obtain ⟨rest, tokens, count, indent, indents, keyAllowed, mark, marks⟩ := t
  obtain rfl : marks = [] := houtside
  obtain rfl : mark = none := hmark
  obtain rfl : indent = 0 := hindent
  obtain rfl : indents = [-1] := hindents
  show Except.ok (Token.streamEnd :: Token.blockEnd :: tokens).reverse = _
  simp

/-- At the end of the text an item that is a mapping and the mapping around it end. -/
theorem Stands.endsItem (hs : Stands s 2 [0, -1] keyAllowed p []) :
    Ends s [.blockEnd, .blockEnd, .streamEnd] := by
  refine hs.ends fun t houtside hmark hindent hindents ↦ ?_
  obtain ⟨rest, tokens, count, indent, indents, keyAllowed, mark, marks⟩ := t
  obtain rfl : marks = [] := houtside
  obtain rfl : mark = none := hmark
  obtain rfl : indent = 2 := hindent
  obtain rfl : indents = [0, -1] := hindents
  show Except.ok (Token.streamEnd :: Token.blockEnd :: Token.blockEnd :: tokens).reverse = _
  simp

theorem scan_of_ends {gs : Glyphs} {ts : List Token} (hends : Ends (start gs) ts) :
    scan gs = .ok ts := by
  obtain ⟨s, hsteps, hgap, hfinish⟩ := hends
  exact scan_of_steps hsteps hgap hfinish

end ApiManifest.Yaml.Scanner
