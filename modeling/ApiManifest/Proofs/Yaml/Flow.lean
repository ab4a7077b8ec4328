import ApiManifest.Proofs.Yaml.Steps

/-!
The scanner inside flow collections. `InFlow` is what its state keeps there: marks of keys are
dropped when they cannot be completed and never demanded, so that no token is refused for a mark
before it. Each lemma reads one token.
-/

set_option autoImplicit false
set_option relaxedAutoImplicit false

namespace ApiManifest.Yaml.Scanner

/-- Holds of a place for a key that need not become one. -/
def Optional (mark : Option KeyMark) : Prop := ∀ m ∈ mark, m.required = false

/-- What a scanner keeps inside a number of flow collections that no block collection contains. -/
structure InFlow (s : Scanner) (depth : Nat) : Prop where
  counted : s.count = s.tokens.length
  depth : s.marks.length = depth
  optional : Optional s.mark
  optionals : ∀ mark ∈ s.marks, Optional mark
  outside : s.indent = -1 ∧ s.indents = []

/-- The mark of a key that can still be completed at a glyph. -/
def live (g : Glyph) (mark : Option KeyMark) : Option KeyMark :=
  mark.filter fun m ↦ !(m.line < g.line || m.column + 1024 < g.column)

theorem Optional.live {mark : Option KeyMark} (hmark : Optional mark) (g : Glyph) :
    Optional (live g mark) := by
  intro m hm
  cases mark with
  | none => exact absurd hm (by simp [Scanner.live])
  | some k =>
    rw [Scanner.live, Option.mem_def, Option.filter_eq_some_iff] at hm
    exact hmark m hm.1

theorem Optional.none : Optional none := fun _ hm ↦ absurd hm (by simp)

theorem expire_of_optional {mark : Option KeyMark} (hmark : Optional mark) (g : Glyph) :
    expire g mark = .ok (live g mark) := by
  cases mark with
  | none => rfl
  | some m =>
    have hrequired : m.required = false := hmark m rfl
    unfold expire
    simp only [hrequired, Bool.false_eq_true, if_false]
    split_ifs with hpast
    · simp [live, Option.filter, hpast]
    · simp [live, Option.filter, hpast]

theorem mapM_expire_of_optional {marks : List (Option KeyMark)}
    (hmarks : ∀ mark ∈ marks, Optional mark) (g : Glyph) :
    marks.mapM (expire g) = .ok (marks.map (live g)) := by
  induction marks with
  | nil => rfl
  | cons mark marks ih =>
    rw [List.mapM_cons, expire_of_optional (hmarks mark List.mem_cons_self),
      ih fun m hm ↦ hmarks m (List.mem_cons_of_mem mark hm)]
    rfl

theorem expireMarks_of_optional {s : Scanner} (hmark : Optional s.mark)
    (hmarks : ∀ mark ∈ s.marks, Optional mark) (g : Glyph) :
    s.expireMarks g = .ok { s with mark := live g s.mark, marks := s.marks.map (live g) } := by
  rw [expireMarks, expire_of_optional hmark, mapM_expire_of_optional hmarks]
  rfl

namespace InFlow

variable {s t : Scanner} {depth : Nat}

theorem inFlow (hs : InFlow s (depth + 1)) : s.inFlow = true := by
  have hdepth := hs.depth
  unfold Scanner.inFlow
  cases hmarks : s.marks with
  | nil => rw [hmarks] at hdepth; exact absurd hdepth (Nat.succ_ne_zero _).symm
  | cons mark marks => rfl

/-- The scanner when the marks that a glyph ends are dropped. -/
def expired (s : Scanner) (g : Glyph) : Scanner :=
  { s with mark := live g s.mark, marks := s.marks.map (live g) }

theorem expired_inFlow (hs : InFlow s depth) (g : Glyph) : InFlow (expired s g) depth where
  counted := hs.counted
  depth := by rw [expired, List.length_map]; exact hs.depth
  optional := hs.optional.live g
  optionals := by
    intro mark hmark
    obtain ⟨before, hbefore, rfl⟩ := List.mem_map.mp hmark
    exact (hs.optionals before hbefore).live g
  outside := hs.outside

variable {p : Spot} {c : Char} {cs : List Char} (hs : InFlow s (depth + 1))
  (hrest : s.rest = place p (c :: cs)) (hc : StartsToken c)

include hs hrest hc

/-- A token starts here: no gap is passed, and no mark is demanded. -/
theorem ready :
    dropGap s.inFlow s.keyAllowed false s.rest =
        (⟨c, p.line, p.column⟩ :: place (p.after c) cs, s.keyAllowed) ∧
      expireMarks ⟨c, p.line, p.column⟩
          { s with
            rest := ⟨c, p.line, p.column⟩ :: place (p.after c) cs
            keyAllowed := s.keyAllowed } =
        .ok (expired s ⟨c, p.line, p.column⟩) ∧
      ∀ column, (expired s ⟨c, p.line, p.column⟩).unroll column =
        expired s ⟨c, p.line, p.column⟩ := by
  have hsame : { s with rest := s.rest, keyAllowed := s.keyAllowed } = s := rfl
  refine ⟨?_, ?_, fun column ↦ ?_⟩
  · rw [hrest, dropGap_of_startsToken hc, place_cons]
  · rw [← place_cons, ← hrest, hsame]
    exact expireMarks_of_optional hs.optional hs.optionals _
  · rw [unroll, if_pos (hs.expired_inFlow _).inFlow]

theorem steps {s' : Scanner}
    (htoken : (expired s ⟨c, p.line, p.column⟩).token ⟨c, p.line, p.column⟩ (place (p.after c) cs) =
      .ok s') (hlength : s'.rest.length ≤ cs.length) : Steps s s' := by
  obtain ⟨hgap, hmarks, hunroll⟩ := ready hs hrest hc
  rw [← length_place (p.after c)] at hlength
  refine Steps.token hgap hmarks ?_ hlength
  rw [hunroll]
  exact htoken

theorem fails {cause : Error}
    (htoken : (expired s ⟨c, p.line, p.column⟩).token ⟨c, p.line, p.column⟩ (place (p.after c) cs) =
      .error cause) : Fails s := by
  obtain ⟨hgap, hmarks, hunroll⟩ := ready hs hrest hc
  rw [← hunroll p.column] at htoken
  exact Fails.token hgap hmarks htoken

end InFlow

section

variable {s : Scanner} {depth : Nat}

theorem InFlow.dropMarkHere (hs : InFlow s depth) :
    s.dropMarkHere = .ok { s with mark := none } := by
  obtain ⟨rest, tokens, count, indent, indents, keyAllowed, mark, marks⟩ := s
  cases mark with
  | none => rfl
  | some m =>
    have hrequired : m.required = false := hs.optional m rfl
    simp [Scanner.dropMarkHere, hrequired]

/-- The place for a key that a token leaves behind when it starts at a glyph. -/
def markAt (s : Scanner) (line column : Nat) : Option KeyMark :=
  if s.keyAllowed then some ⟨s.count, line, column, false⟩ else s.mark

/-- Remembering a place for a key succeeds, and the place need not become one. -/
theorem InFlow.saveMark (hs : InFlow s (depth + 1)) (g : Glyph) :
    s.saveMark g = .ok { s with mark := markAt s g.line g.column } := by
  have hflow := hs.inFlow
  have hdrop := hs.dropMarkHere
  obtain ⟨rest, tokens, count, indent, indents, keyAllowed, mark, marks⟩ := s
  cases keyAllowed with
  | false => rfl
  | true =>
    rw [Scanner.saveMark, hdrop]
    simp only [Scanner.inFlow] at hflow
    simp [hflow, bind, Except.bind, pure, Except.pure, Scanner.inFlow, markAt]

/-- A place for a key that a token leaves behind need not become one. -/
theorem InFlow.markAt_optional (hs : InFlow s depth)
    (line column : Nat) : Optional (markAt s line column) := by
  unfold markAt
  split_ifs
  · intro m hm
    rw [← Option.some.inj hm]
  · exact hs.optional

/-- A token that opens and closes nothing leaves the scanner where it was. -/
theorem InFlow.of_token (hs : InFlow s depth) (rest : Glyphs) (t : Token)
    (keyAllowed : Bool) {mark : Option KeyMark} (hmark : Optional mark) :
    InFlow { s with rest, tokens := t :: s.tokens, count := s.count + 1, keyAllowed, mark }
      depth where
  counted := by
    rw [List.length_cons, ← hs.counted]
  depth := hs.depth
  optional := hmark
  optionals := hs.optionals
  outside := hs.outside

/-- The start of a collection leads into it. -/
theorem InFlow.enter (hs : InFlow s depth) (rest : Glyphs) (t : Token) (line column : Nat) :
    InFlow { s with
      rest, tokens := t :: s.tokens, count := s.count + 1, keyAllowed := true
      mark := none, marks := markAt s line column :: s.marks } (depth + 1) where
  counted := by rw [List.length_cons, ← hs.counted]
  depth := by rw [List.length_cons, hs.depth]
  optional := Optional.none
  optionals := by
    intro mark hmark
    rcases List.mem_cons.mp hmark with rfl | hmark
    · exact hs.markAt_optional line column
    · exact hs.optionals mark hmark
  outside := hs.outside

/-- The end of a collection leads out of it. -/
theorem InFlow.leave (hs : InFlow s (depth + 1)) (rest : Glyphs) (t : Token) :
    InFlow { s with
      rest, tokens := t :: s.tokens, count := s.count + 1, keyAllowed := false
      mark := s.marks.head?.getD none, marks := s.marks.tail } depth where
  counted := by rw [List.length_cons, ← hs.counted]
  depth := by rw [List.length_tail, hs.depth, Nat.add_sub_cancel]
  optional := by
    cases hmarks : s.marks with
    | nil => exact Optional.none
    | cons mark marks => exact hs.optionals mark (hmarks ▸ List.mem_cons_self)
  optionals := fun mark hmark ↦ hs.optionals mark (List.mem_of_mem_tail hmark)
  outside := hs.outside

theorem token_brace (hs : InFlow s (depth + 1)) (line column : Nat) (rest : Glyphs) :
    s.token ⟨'\x7b', line, column⟩ rest = .ok
      { s with
        rest, tokens := .flowMappingStart :: s.tokens, count := s.count + 1, keyAllowed := true
        mark := none, marks := markAt s line column :: s.marks } := by
  simp [token, markAhead_of_ne, hs.saveMark, openFlow, push]

theorem token_bracket (hs : InFlow s (depth + 1)) (line column : Nat) (rest : Glyphs) :
    s.token ⟨'[', line, column⟩ rest = .ok
      { s with
        rest, tokens := .flowSequenceStart :: s.tokens, count := s.count + 1, keyAllowed := true
        mark := none, marks := markAt s line column :: s.marks } := by
  simp [token, markAhead_of_ne, hs.saveMark, openFlow, push]

theorem token_closeBrace (hs : InFlow s (depth + 1)) (line column : Nat) (rest : Glyphs) :
    s.token ⟨'\x7d', line, column⟩ rest = .ok
      { s with
        rest, tokens := .flowMappingEnd :: s.tokens, count := s.count + 1, keyAllowed := false
        mark := s.marks.head?.getD none, marks := s.marks.tail } := by
  have hdepth := hs.depth
  obtain ⟨srest, tokens, count, indent, indents, keyAllowed, mark, marks⟩ := s
  cases marks with
  | nil => exact absurd hdepth (Nat.succ_ne_zero _).symm
  | cons outer marks => simp [token, markAhead_of_ne, hs.dropMarkHere, closeFlow, push]

theorem token_closeBracket (hs : InFlow s (depth + 1)) (line column : Nat) (rest : Glyphs) :
    s.token ⟨']', line, column⟩ rest = .ok
      { s with
        rest, tokens := .flowSequenceEnd :: s.tokens, count := s.count + 1, keyAllowed := false
        mark := s.marks.head?.getD none, marks := s.marks.tail } := by
  have hdepth := hs.depth
  obtain ⟨srest, tokens, count, indent, indents, keyAllowed, mark, marks⟩ := s
  cases marks with
  | nil => exact absurd hdepth (Nat.succ_ne_zero _).symm
  | cons outer marks => simp [token, markAhead_of_ne, hs.dropMarkHere, closeFlow, push]

theorem token_comma (hs : InFlow s (depth + 1)) (line column : Nat) (rest : Glyphs) :
    s.token ⟨',', line, column⟩ rest = .ok
      { s with
        rest, tokens := .flowEntry :: s.tokens, count := s.count + 1, keyAllowed := true
        mark := none } := by
  simp [token, markAhead_of_ne, hs.dropMarkHere, push]

theorem token_quote (hs : InFlow s (depth + 1)) (line column : Nat) (rest : Glyphs) :
    s.token ⟨'"', line, column⟩ rest =
      (doubleQuoted [] .empty .between rest).map fun r ↦
        { s with
          rest := r.2, tokens := .scalar .marked (String.ofList r.1) :: s.tokens
          count := s.count + 1, keyAllowed := false, mark := markAt s line column } := by
  cases hread : doubleQuoted [] .empty .between rest with
  | error e => simp [token, markAhead_of_ne, hs.saveMark, hread, Except.map, bind, Except.bind]
  | ok r => simp [token, markAhead_of_ne, hs.saveMark, hread, Except.map, take, push,
      bind, Except.bind, pure, Except.pure]

/-- A colon after a scalar that may be a key makes it one. -/
theorem token_colon_mark (hs : InFlow s (depth + 1)) {m : KeyMark} (hm : s.mark = some m)
    {t : Token} {before : List Token} (htokens : s.tokens = t :: before)
    (hbefore : m.tokensBefore = before.length) (line column : Nat) (rest : Glyphs) :
    s.token ⟨':', line, column⟩ rest = .ok
      { s with
        rest, tokens := .value :: t :: .key :: before, count := s.count + 2, keyAllowed := false
        mark := none } := by
  have hflow := hs.inFlow
  have hcounted := hs.counted
  rw [htokens, List.length_cons] at hcounted
  have hinsert : s.insertAt m.tokensBefore .key =
      { s with tokens := t :: .key :: before, count := s.count + 1 } := by
    have hlater : s.count - m.tokensBefore = 1 := by omega
    simp only [insertAt, hlater, htokens, List.take_succ_cons, List.take_zero, List.drop_succ_cons,
      List.drop_zero, List.singleton_append]
  have hvalue : s.valueEntry ⟨':', line, column⟩ = .ok
      { s with
        tokens := .value :: t :: .key :: before, count := s.count + 2, keyAllowed := false
        mark := none } := by
    have hflow' := hflow
    rw [Scanner.inFlow, Bool.not_eq_true'] at hflow'
    rw [valueEntry, hm]
    simp [hinsert, roll, push, Scanner.inFlow, hflow']
  simp [token, markAhead_of_ne, hflow, hvalue]

/-- A colon after a scalar that can be no key starts a value all the same. -/
theorem token_colon_none (hs : InFlow s (depth + 1)) (hm : s.mark = none) (line column : Nat)
    (rest : Glyphs) :
    s.token ⟨':', line, column⟩ rest = .ok
      { s with
        rest, tokens := .value :: s.tokens, count := s.count + 1, keyAllowed := false } := by
  have hflow := hs.inFlow
  have hvalue : s.valueEntry ⟨':', line, column⟩ = .ok
      { s with tokens := .value :: s.tokens, count := s.count + 1, keyAllowed := false } := by
    rw [valueEntry, hm]
    simp [hflow, roll, push, pure, Except.pure, hm]
  simp [token, markAhead_of_ne, hflow, hvalue]

/-- Holds of the characters with which a plain scalar starts when no gap follows. -/
def StartsPlain (c : Char) : Prop := (isBlank c = false ∧ isIndicator c = false) ∨ c = '-'

theorem token_plain (hs : InFlow s (depth + 1)) {c : Char} (hc : StartsPlain c) {rest : Glyphs}
    (hgap : gapAhead rest = false) (line : Nat) {column : Nat} (hcolumn : column ≠ 0) :
    s.token ⟨c, line, column⟩ rest =
      (plainScalar true 0 [] .empty false (⟨c, line, column⟩ :: rest)).map fun r ↦
        { s with
          rest := r.rest, tokens := .scalar .plain (String.ofList r.text) :: s.tokens
          count := s.count + 1, keyAllowed := r.lineEnded, mark := markAt s line column } := by
  have hmargin : (column == 0) = false := beq_eq_false_iff_ne.mpr hcolumn
  have hmark (d : Char) : markAhead d (⟨c, line, column⟩ :: rest) = false := by
    rcases rest with _ | ⟨x, _ | ⟨y, rest⟩⟩ <;> simp [markAhead, hcolumn]
  have hflow := hs.inFlow
  have hindent : s.indent + 1 = 0 := by rw [hs.outside.1]; rfl
  have htoken : s.token ⟨c, line, column⟩ rest = (do
      let s ← s.saveMark ⟨c, line, column⟩
      let p ← plainScalar s.inFlow (s.indent + 1) [] .empty false (⟨c, line, column⟩ :: rest)
      return { s.take (.scalar .plain (String.ofList p.text)) p.rest with
        keyAllowed := p.lineEnded })
      := by
    rcases hc with ⟨hblank, hindicator⟩ | rfl
    · have hne (d : Char) (hd : isIndicator d = true) : c ≠ d := by
        rintro rfl
        rw [hindicator] at hd
        exact Bool.false_ne_true hd
      simp [token, hmargin, hmark, hblank, hindicator, hne '[' rfl, hne ']' rfl, hne '\x7b' rfl,
        hne '\x7d' rfl, hne ',' rfl, hne '*' rfl, hne '&' rfl, hne '!' rfl, hne '\'' rfl,
        hne '"' rfl, hne '-' rfl, hne '?' rfl, hne ':' rfl, hne '|' rfl, hne '>' rfl]
    · simp [token, hmargin, hmark, hgap]
  have hflow' : ({ s with mark := markAt s line column } : Scanner).inFlow = true := hflow
  rw [htoken, hs.saveMark]
  simp only [bind, Except.bind]
  rw [show (Scanner.inFlow _) = true from hflow', hindent]
  cases plainScalar true 0 [] .empty false (⟨c, line, column⟩ :: rest) with
  | error e => rfl
  | ok r => rfl

end

end ApiManifest.Yaml.Scanner
