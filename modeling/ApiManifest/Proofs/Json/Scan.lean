import ApiManifest.Proofs.Json.Tokens

/-!
The scan of JSON text. Inside a collection the text of a value has the tokens that `tokens?` gives
(`scans_value`, by the structure of the value), and so has the text of a whole object
(`scan_object`); a text with a string that is not closed has none (`scan_object_none`).
-/

set_option autoImplicit false
set_option relaxedAutoImplicit false

namespace ApiManifest.Json

open Yaml Scanner

variable {s : Scanner} {depth : Nat} {p : Spot} {cs : List Char}

/-- The text of a number or a word is one token. -/
theorem scans_plain (hs : InFlow s (depth + 1)) {v : Json} (hv : IsPlain v)
    (hrest : s.rest = place p ((chars v).map lineFeed ++ cs)) (hp : p.column ≠ 0)
    (hcs : Delimits cs) :
    Scans s (depth + 1) (p.past ((chars v).map lineFeed)) cs
      (some [.scalar .plain (String.ofList (chars v))]) := by
  obtain ⟨hne, hbare⟩ := isBare_chars hv
  rw [map_lineFeed fun h ↦ absurd (hbare _ h) (by decide)] at hrest ⊢
  obtain ⟨c, ds, hchars⟩ := List.exists_cons_of_ne_nil hne
  rw [hchars] at hbare hrest ⊢
  obtain ⟨htoken, hplain⟩ := isBare_starts (hbare c List.mem_cons_self)
  have hexpired := hs.expired_inFlow ⟨c, p.line, p.column⟩
  have hgap : gapAhead (place (p.after c) (ds ++ cs)) = false := by
    rw [gapAhead_place]
    cases ds with
    | nil =>
      obtain ⟨d, es, rfl, rfl | rfl | rfl⟩ := hcs <;> rfl
    | cons d ds =>
      obtain ⟨hblank, hbreak, _⟩ := isBare_plain
        (hbare d (List.mem_cons_of_mem c List.mem_cons_self))
      rw [List.cons_append, opensGap, hblank, hbreak, Bool.or_self]
  have hread := token_plain hexpired hplain hgap p.line hp
  rw [← place_cons, ← List.cons_append, plainScalar_bare (c :: ds) cs [] hbare hcs p hp] at hread
  have hcolumn : (p.past (c :: ds)).column ≠ 0 := by
    rw [p.past_of_line fun d hd ↦ (isBare_plain (hbare d hd)).2.1, List.length_cons]
    exact Nat.succ_ne_zero _
  refine ⟨_, hs.steps hrest htoken hread ?_,
    hexpired.of_token _ _ false (hexpired.markAt_optional _ _), rfl, rfl, rfl, hcolumn⟩
  simp only [length_place, List.append_eq, List.length_append]
  exact Nat.le_add_left _ _

/-- The characters of the structure start tokens. -/
theorem startsToken_of_mem {c : Char} (hc : c ∈ ['[', ']', '\x7b', '\x7d', ',']) :
    StartsToken c := by
  have hall : ∀ d ∈ ['[', ']', '\x7b', '\x7d', ','],
      isBreak d = false ∧ isBlank d = false ∧ d ≠ '#' ∧ d ≠ '\uFEFF' :=
    List.all_iff_forall_prop.mp (by decide)
  exact hall c hc

theorem steps_bracket (hs : InFlow s (depth + 1)) (hrest : s.rest = place p ('[' :: cs)) :
    ∃ s', Steps s s' ∧ InFlow s' (depth + 2) ∧ s'.rest = place (p.after '[') cs ∧
      s'.tokens = .flowSequenceStart :: s.tokens := by
  have hexpired := hs.expired_inFlow ⟨'[', p.line, p.column⟩
  refine ⟨_, hs.steps hrest (startsToken_of_mem (by decide)) (token_bracket hexpired _ _ _) ?_,
    hexpired.enter _ _ _ _, rfl, rfl⟩
  exact Nat.le_of_eq (length_place _ _)

theorem steps_brace (hs : InFlow s (depth + 1)) (hrest : s.rest = place p ('\x7b' :: cs)) :
    ∃ s', Steps s s' ∧ InFlow s' (depth + 2) ∧ s'.rest = place (p.after '\x7b') cs ∧
      s'.tokens = .flowMappingStart :: s.tokens ∧ s'.keyAllowed = true := by
  have hexpired := hs.expired_inFlow ⟨'\x7b', p.line, p.column⟩
  refine ⟨_, hs.steps hrest (startsToken_of_mem (by decide)) (token_brace hexpired _ _ _) ?_,
    hexpired.enter _ _ _ _, rfl, rfl, rfl⟩
  exact Nat.le_of_eq (length_place _ _)

theorem steps_comma (hs : InFlow s (depth + 1)) (hrest : s.rest = place p (',' :: cs)) :
    ∃ s', Steps s s' ∧ InFlow s' (depth + 1) ∧ s'.rest = place (p.after ',') cs ∧
      s'.tokens = .flowEntry :: s.tokens ∧ s'.keyAllowed = true := by
  have hexpired := hs.expired_inFlow ⟨',', p.line, p.column⟩
  refine ⟨_, hs.steps hrest (startsToken_of_mem (by decide)) (token_comma hexpired _ _ _) ?_,
    hexpired.of_token _ _ true Optional.none, rfl, rfl, rfl⟩
  exact Nat.le_of_eq (length_place _ _)

theorem scans_closeBracket (hs : InFlow s (depth + 1)) (hrest : s.rest = place p (']' :: cs)) :
    Scans s depth (p.after ']') cs (some [.flowSequenceEnd]) := by
  have hexpired := hs.expired_inFlow ⟨']', p.line, p.column⟩
  refine ⟨_, hs.steps hrest (startsToken_of_mem (by decide)) (token_closeBracket hexpired _ _ _) ?_,
    hexpired.leave _ _, rfl, rfl, rfl, column_after_ne rfl p⟩
  exact Nat.le_of_eq (length_place _ _)

theorem scans_closeBrace (hs : InFlow s (depth + 1)) (hrest : s.rest = place p ('\x7d' :: cs)) :
    Scans s depth (p.after '\x7d') cs (some [.flowMappingEnd]) := by
  have hexpired := hs.expired_inFlow ⟨'\x7d', p.line, p.column⟩
  refine ⟨_, hs.steps hrest (startsToken_of_mem (by decide)) (token_closeBrace hexpired _ _ _) ?_,
    hexpired.leave _ _, rfl, rfl, rfl, column_after_ne rfl p⟩
  exact Nat.le_of_eq (length_place _ _)

theorem delimits_items (items : List Json) :
    Delimits ((moreItemChars items).map lineFeed ++ cs) := by
  cases items with
  | nil => exact ⟨']', _, rfl, .inr (.inl rfl)⟩
  | cons v rest => exact ⟨',', _, rfl, .inl rfl⟩

theorem delimits_fields (fields : List (String × Json)) :
    Delimits ((moreFieldChars fields).map lineFeed ++ cs) := by
  cases fields with
  | nil => exact ⟨'\x7d', _, rfl, .inr (.inr rfl)⟩
  | cons f rest => exact ⟨',', _, rfl, .inl rfl⟩

mutual

/-- Inside a collection the text of a value has the tokens that `tokens?` gives. -/
theorem scans_value (v : Json) {s : Scanner} {depth : Nat} {p : Spot} {cs : List Char}
    (hs : InFlow s (depth + 1)) (hrest : s.rest = place p ((chars v).map lineFeed ++ cs))
    (hp : p.column ≠ 0) (hcs : Delimits cs) :
    Scans s (depth + 1) (p.past ((chars v).map lineFeed)) cs (tokens? v) := by
  match v with
  | .null => exact scans_plain hs (v := .null) trivial hrest hp hcs
  | .bool b => exact scans_plain hs (v := .bool b) trivial hrest hp hcs
  | .int n => exact scans_plain hs (v := .int n) trivial hrest hp hcs
  | .float x => exact scans_plain hs (v := .float x) trivial hrest hp hcs
  | .str k =>
    rw [chars] at hrest ⊢
    cases htext : reread k with
    | none =>
      rw [tokens?, htext]
      exact fails_string hs k hrest htext
    | some text =>
      obtain ⟨s', hsteps, hs', hrest', htokens, hkey, _⟩ := steps_string hs k hrest htext
      rw [tokens?, htext]
      exact ⟨s', hsteps, hs', hrest', htokens, hkey, column_past_stringText k p⟩
  | .arr items =>
    rw [chars, List.map_cons, List.cons_append] at hrest
    obtain ⟨s', hsteps, hs', hrest', htokens⟩ := steps_bracket hs hrest
    rw [chars, tokens?]
    exact (scans_items items hs' hrest' (column_after_ne rfl p)).of_steps
      [.flowSequenceStart] hsteps htokens
  | .obj fields =>
    rw [chars, List.map_cons, List.cons_append] at hrest
    obtain ⟨s', hsteps, hs', hrest', htokens, hkey⟩ := steps_brace hs hrest
    rw [chars, tokens?]
    exact (scans_fields fields hs' hkey hrest').of_steps
      [.flowMappingStart] hsteps htokens

theorem scans_items (items : List Json) {s : Scanner} {depth : Nat} {p : Spot} {cs : List Char}
    (hs : InFlow s (depth + 1)) (hrest : s.rest = place p ((itemChars items).map lineFeed ++ cs))
    (hp : p.column ≠ 0) :
    Scans s depth (p.past ((itemChars items).map lineFeed)) cs (itemTokens? items) := by
  match items with
  | [] =>
    rw [itemChars] at hrest ⊢
    exact scans_closeBracket hs hrest
  | v :: rest =>
    rw [itemChars, List.map_append] at hrest ⊢
    rw [List.append_assoc] at hrest
    rw [Spot.past_append, itemTokens?]
    refine (scans_value v hs hrest hp (delimits_items rest)).bind fun s' hs' hrest' _ _ ↦ ?_
    exact scans_moreItems rest hs' hrest'

theorem scans_moreItems (items : List Json) {s : Scanner} {depth : Nat} {p : Spot}
    {cs : List Char} (hs : InFlow s (depth + 1))
    (hrest : s.rest = place p ((moreItemChars items).map lineFeed ++ cs)) :
    Scans s depth (p.past ((moreItemChars items).map lineFeed)) cs (moreItemTokens? items) := by
  match items with
  | [] =>
    rw [moreItemChars] at hrest ⊢
    exact scans_closeBracket hs hrest
  | v :: rest =>
    rw [moreItemChars, List.map_cons, List.map_append, List.cons_append, List.append_assoc] at hrest
    obtain ⟨s', hsteps, hs', hrest', htokens, _⟩ := steps_comma hs hrest
    rw [moreItemChars, List.map_cons, List.map_append, Spot.past_cons, Spot.past_append,
      moreItemTokens?]
    refine Scans.of_steps [.flowEntry] hsteps htokens ?_
    refine (scans_value v hs' hrest' (column_after_ne rfl p) (delimits_items rest)).bind
      fun s'' hs'' hrest'' _ _ ↦ ?_
    exact scans_moreItems rest hs'' hrest''

theorem scans_fields (fields : List (String × Json)) {s : Scanner} {depth : Nat} {p : Spot}
    {cs : List Char} (hs : InFlow s (depth + 1)) (hkey : s.keyAllowed = true)
    (hrest : s.rest = place p ((fieldChars fields).map lineFeed ++ cs)) :
    Scans s depth (p.past ((fieldChars fields).map lineFeed)) cs (fieldTokens? fields) := by
  match fields with
  | [] =>
    rw [fieldChars] at hrest ⊢
    exact scans_closeBrace hs hrest
  | (k, v) :: rest =>
    rw [fieldChars, List.map_append, List.map_cons, List.map_append] at hrest ⊢
    rw [List.append_assoc, List.cons_append, List.append_assoc] at hrest
    rw [Spot.past_append, Spot.past_cons, Spot.past_append, fieldTokens?]
    refine (scans_key hs hkey k hrest).bind fun s' hs' hrest' _ hp' ↦ ?_
    refine (scans_value v hs' hrest' hp' (delimits_fields rest)).bind
      fun s'' hs'' hrest'' _ _ ↦ ?_
    exact scans_moreFields rest hs'' hrest''

theorem scans_moreFields (fields : List (String × Json)) {s : Scanner} {depth : Nat} {p : Spot}
    {cs : List Char} (hs : InFlow s (depth + 1))
    (hrest : s.rest = place p ((moreFieldChars fields).map lineFeed ++ cs)) :
    Scans s depth (p.past ((moreFieldChars fields).map lineFeed)) cs (moreFieldTokens? fields) := by
  match fields with
  | [] =>
    rw [moreFieldChars] at hrest ⊢
    exact scans_closeBrace hs hrest
  | (k, v) :: rest =>
    rw [moreFieldChars, List.map_cons, List.map_append, List.map_cons, List.map_append,
      List.cons_append, List.append_assoc, List.cons_append, List.append_assoc] at hrest
    obtain ⟨s', hsteps, hs', hrest', htokens, hkey⟩ := steps_comma hs hrest
    rw [moreFieldChars, List.map_cons, List.map_append, List.map_cons, List.map_append,
      Spot.past_cons, Spot.past_append, Spot.past_cons, Spot.past_append, moreFieldTokens?]
    refine Scans.of_steps [.flowEntry] hsteps htokens ?_
    refine (scans_key hs' hkey k hrest').bind fun s₁ hs₁ hrest₁ _ hp₁ ↦ ?_
    refine (scans_value v hs₁ hrest₁ hp₁ (delimits_fields rest)).bind fun s₂ hs₂ hrest₂ _ _ ↦ ?_
    exact scans_moreFields rest hs₂ hrest₂

end

/-! ### Whole texts -/

/-- An object that opens the text leads into its fields. -/
theorem steps_start (cs : List Char) :
    ∃ s', Steps (Scanner.start (place .start ('\x7b' :: cs))) s' ∧ InFlow s' 1 ∧
      s'.rest = place (Spot.after .start '\x7b') cs ∧ s'.tokens = [.flowMappingStart] ∧
        s'.keyAllowed = true := by
  have htoken : (Scanner.start (place .start ('\x7b' :: cs))).token ⟨'\x7b', 0, 0⟩
      (place (Spot.after .start '\x7b') cs) = .ok
      { rest := place (Spot.after .start '\x7b') cs, tokens := [.flowMappingStart], count := 1,
        indent := -1, indents := [], keyAllowed := true, mark := none,
        marks := [some ⟨0, 0, 0, false⟩] } := by
    simp [Scanner.start, token, markAhead_of_ne, saveMark, dropMarkHere, Scanner.inFlow, openFlow,
      push, bind, Except.bind, pure, Except.pure]
  refine ⟨_, Steps.token (dropGap_of_startsToken (startsToken_of_mem (by decide)) _ _ _ cs)
    rfl htoken
    (Nat.le_refl _), ?_, rfl, rfl, rfl⟩
  refine ⟨rfl, rfl, Optional.none, fun mark hmark ↦ ?_, rfl, rfl⟩
  rw [List.mem_singleton.mp hmark]
  intro m hm
  rw [← Option.some.inj hm]

/-- A scanner that stands at the end of the text outside of all collections has its tokens. -/
theorem finish_of_inFlow (hs : InFlow s 0) : s.finish = .ok (s.tokens.reverse ++ [.streamEnd]) := by
  have hmarks : s.marks = [] := List.eq_nil_of_length_eq_zero hs.depth
  have hunroll : s.unroll (-1) = s := by
    rw [unroll, Scanner.inFlow, hmarks, hs.outside.2]
    simp only [List.isEmpty_nil, Bool.not_true, Bool.false_eq_true, if_false, closeBlocks]
    rw [← hs.outside.2]
  rw [finish, hunroll]
  simp only [hs.dropMarkHere, bind, Except.bind, pure, Except.pure, push, List.reverse_cons]

/-- The scan of an object gives the tokens of its text, if every string in it is closed. -/
theorem scan_object (fields : List (String × Json)) :
    (tokens? (.obj fields)).elim
      (∃ cause, scan (place .start ((chars (.obj fields)).map lineFeed)) = .error cause) fun ts ↦
        scan (place .start ((chars (.obj fields)).map lineFeed)) = .ok (ts ++ [.streamEnd]) := by
  obtain ⟨s, hsteps, hs, hrest, htokens, hkey⟩ := steps_start ((fieldChars fields).map lineFeed)
  have hscans : Scans s 0 _ [] (fieldTokens? fields) :=
    scans_fields fields hs hkey (by rw [hrest, List.append_nil])
  rw [chars, List.map_cons, tokens?]
  cases hfields : fieldTokens? fields with
  | none =>
    rw [hfields] at hscans
    exact scan_of_fails (hsteps.fails hscans)
  | some ts =>
    rw [hfields] at hscans
    obtain ⟨s', hsteps', hs', hrest', htokens', _⟩ := hscans
    refine scan_of_steps (hsteps.trans hsteps') ?_ ?_
    · rw [hrest', place_nil, dropGap]
    · have hfinish := finish_of_inFlow (s := { s' with rest := [] })
        ⟨hs'.1, hs'.2, hs'.3, hs'.4, hs'.5⟩
      rw [hrest', place_nil, dropGap]
      refine hfinish.trans ?_
      rw [htokens', htokens, List.reverse_append, List.reverse_reverse]
      rfl

end ApiManifest.Json
