import ApiManifest.Proofs.Json.Strings
import ApiManifest.Proofs.Yaml.Flow

/-!
JSON text as YAML tokens. `tokens?` gives the tokens that a scanner reads from the text of a JSON
value: those of flow collections, where a string is what `reread` makes of it, and where a key is
one only when it stands on one line and within 1024 characters (`fitsKey`). A string that is not
closed before a mark of a document has no tokens, and then the scan fails (`scans_value`).
-/

set_option autoImplicit false
set_option relaxedAutoImplicit false

namespace ApiManifest.Json

open Yaml Scanner

/-- Whether a scanner takes the text of a string for a key. -/
def fitsKey (k : String) : Bool :=
  !k.toList.any isSeparator && decide ((stringChars k).length ≤ 1024)

/-- The tokens of a key and the colon after it. -/
def keyTokens? (k : String) : Option (List Token) :=
  (reread k).map fun text ↦
    if fitsKey k then [.key, .scalar .marked text, .value] else [.scalar .marked text, .value]

mutual

/-- The tokens of the text of a value, if every string in it is closed. -/
def tokens? : Json → Option (List Token)
  | .str s => (reread s).map fun text ↦ [.scalar .marked text]
  | .arr items => (itemTokens? items).map (.flowSequenceStart :: ·)
  | .obj fields => (fieldTokens? fields).map (.flowMappingStart :: ·)
  | v => some [.scalar .plain (String.ofList (chars v))]

/-- The tokens of items after an opening bracket. -/
def itemTokens? : List Json → Option (List Token)
  | [] => some [.flowSequenceEnd]
  | v :: rest => (tokens? v).bind fun ts ↦ (moreItemTokens? rest).map (ts ++ ·)

def moreItemTokens? : List Json → Option (List Token)
  | [] => some [.flowSequenceEnd]
  | v :: rest =>
    ((tokens? v).bind fun ts ↦ (moreItemTokens? rest).map (ts ++ ·)).map (.flowEntry :: ·)

/-- The tokens of fields after an opening brace. -/
def fieldTokens? : List (String × Json) → Option (List Token)
  | [] => some [.flowMappingEnd]
  | (k, v) :: rest => (keyTokens? k).bind fun ks ↦
    ((tokens? v).bind fun ts ↦ (moreFieldTokens? rest).map (ts ++ ·)).map (ks ++ ·)

def moreFieldTokens? : List (String × Json) → Option (List Token)
  | [] => some [.flowMappingEnd]
  | (k, v) :: rest => ((keyTokens? k).bind fun ks ↦
    ((tokens? v).bind fun ts ↦ (moreFieldTokens? rest).map (ts ++ ·)).map (ks ++ ·)).map
      (.flowEntry :: ·)

end

/-- The scanner reads the given tokens and stands off the margin before a rest of the text; without
tokens it fails. -/
def Scans (s : Scanner) (depth : Nat) (q : Spot) (cs : List Char) : Option (List Token) → Prop
  | none => Fails s
  | some ts => ∃ s', Steps s s' ∧ InFlow s' depth ∧ s'.rest = place q cs ∧
      s'.tokens = ts.reverse ++ s.tokens ∧ s'.keyAllowed = false ∧ q.column ≠ 0

/-- Tokens that were read come before those that are read next. -/
theorem Scans.of_steps {s s' : Scanner} {depth : Nat} {q : Spot} {cs : List Char}
    (ts : List Token) {us? : Option (List Token)} (hsteps : Steps s s')
    (htokens : s'.tokens = ts.reverse ++ s.tokens) (hscans : Scans s' depth q cs us?) :
    Scans s depth q cs (us?.map (ts ++ ·)) := by
  cases us? with
  | none => exact hsteps.fails hscans
  | some us =>
    obtain ⟨s'', hsteps', hflow, hrest, htokens', hkey, hcolumn⟩ := hscans
    refine ⟨s'', hsteps.trans hsteps', hflow, hrest, ?_, hkey, hcolumn⟩
    rw [htokens', htokens, List.reverse_append, List.append_assoc]

/-- One scan goes on where another one ends. -/
theorem Scans.bind {s : Scanner} {depth depth' : Nat} {q q' : Spot} {cs cs' : List Char}
    {ts? us? : Option (List Token)} (hscans : Scans s depth q cs ts?)
    (hnext : ∀ s', InFlow s' depth → s'.rest = place q cs → s'.keyAllowed = false →
      q.column ≠ 0 → Scans s' depth' q' cs' us?) :
    Scans s depth' q' cs' (ts?.bind fun ts ↦ us?.map (ts ++ ·)) := by
  cases ts? with
  | none => exact hscans
  | some ts =>
    obtain ⟨s', hsteps, hflow, hrest, htokens, hkey, hcolumn⟩ := hscans
    exact (hnext s' hflow hrest hkey hcolumn).of_steps ts hsteps htokens

/-- Holds of the characters of numbers and of the words for null and the truth values. -/
def IsBare (c : Char) : Prop := c.isAlphanum = true ∨ c = '.' ∨ c = '-' ∨ c = '+'

/-- Holds of a rest of the text that starts with what follows an item or the value of a field. -/
def Delimits (cs : List Char) : Prop := ∃ c ds, cs = c :: ds ∧ (c = ',' ∨ c = ']' ∨ c = '\x7d')

theorem isBare_plain {c : Char} (hc : IsBare c) :
    isBlank c = false ∧ isBreak c = false ∧ isFlowIndicator c = false ∧ c ≠ ':' ∧ c ≠ '#' := by
  have hne (d : Char) (hd : ¬ IsBare d) : (c == d) = false := by
    refine beq_eq_false_iff_ne.mpr ?_
    rintro rfl
    exact hd hc
  have hnot (d : Char) (hd : (d.isAlphanum || d == '.' || d == '-' || d == '+') = false) :
      ¬ IsBare d := by
    simp only [Bool.or_eq_false_iff, beq_eq_false_iff_ne] at hd
    rintro (h | h | h | h)
    · exact absurd h (by simp [hd.1.1.1])
    · exact hd.1.1.2 h
    · exact hd.1.2 h
    · exact hd.2 h
  refine ⟨?_, ?_, ?_, ?_, ?_⟩
  · rw [isBlank, hne ' ' (hnot _ (by decide)), hne '\t' (hnot _ (by decide))]
    rfl
  · rw [isBreak, hne '\n' (hnot _ (by decide)), hne '\u2028' (hnot _ (by decide)),
      hne '\u2029' (hnot _ (by decide))]
    rfl
  · rw [isFlowIndicator, hne ',' (hnot _ (by decide)), hne '[' (hnot _ (by decide)),
      hne ']' (hnot _ (by decide)), hne '\x7b' (hnot _ (by decide)),
      hne '\x7d' (hnot _ (by decide))]
    rfl
  · exact beq_eq_false_iff_ne.mp (hne ':' (hnot _ (by decide)))
  · exact beq_eq_false_iff_ne.mp (hne '#' (hnot _ (by decide)))

/-- A plain scalar of bare characters ends where the item or the value does. -/
theorem plainScalar_bare (cs rest read : List Char) (hcs : ∀ c ∈ cs, IsBare c)
    (hrest : Delimits rest) (p : Spot) (hp : p.column ≠ 0) :
    plainScalar true 0 read .empty false (place p (cs ++ rest)) =
      .ok ⟨read.reverse ++ cs, place (p.past cs) rest, false⟩ := by
  induction cs generalizing read p with
  | nil =>
    obtain ⟨d, ds, rfl, hd⟩ := hrest
    have hmark := documentMarkAhead_off_margin hp (d :: ds)
    rw [List.nil_append, place_cons] at *
    rw [plainScalar, hmark]
    rcases hd with rfl | rfl | rfl <;> simp [isBlank, isBreak, isFlowIndicator, Gap.empty,
      Gap.isBroken]
  | cons c cs ih =>
    obtain ⟨hblank, hbreak, hindicator, hcolon, hcomment⟩ := isBare_plain (hcs c List.mem_cons_self)
    have hmark := documentMarkAhead_off_margin hp (c :: (cs ++ rest))
    have hnext : (p.after c).column ≠ 0 := by
      rw [Spot.after_of_not_isBreak p hbreak]
      exact Nat.succ_ne_zero _
    rw [List.cons_append, place_cons] at *
    rw [plainScalar]
    simp only [hblank, hbreak, hindicator, hmark, Bool.false_and, Bool.and_false,
      Bool.false_eq_true, if_false, Bool.or_false, beq_eq_false_iff_ne.mpr hcolon]
    rw [show Gap.empty.flush read = read from rfl,
      ih (c :: read) (fun d hd ↦ hcs d (List.mem_cons_of_mem c hd)) (p.after c) hnext]
    simp

/-! ### Strings and keys -/

/-- The text of a string, with breaks made alike. -/
def stringText (s : String) : List Char := (stringChars s).map lineFeed

theorem stringText_eq (s : String) : stringText s = '"' :: (shown s.toList ++ ['"']) := by
  rw [stringText, stringChars, List.map_cons, List.map_append, shown]
  rfl

theorem column_past_stringText (s : String) (p : Spot) : (p.past (stringText s)).column ≠ 0 := by
  rw [stringText_eq, Spot.past_cons, Spot.past_append, Spot.past_cons, Spot.past_nil,
    Spot.after_of_not_isBreak _ (by decide)]
  exact Nat.succ_ne_zero _

theorem startsToken_quote : StartsToken '"' := by
  refine ⟨rfl, rfl, ?_, ?_⟩ <;> decide

variable {s : Scanner} {depth : Nat} {p : Spot} {cs : List Char}

/-- The text of a string is one token; the place for a key that it leaves behind is its own when a
key may start there. -/
theorem steps_string (hs : InFlow s (depth + 1)) (k : String)
    (hrest : s.rest = place p (stringText k ++ cs)) {text : String} (htext : reread k = some text) :
    ∃ s', Steps s s' ∧ InFlow s' (depth + 1) ∧ s'.rest = place (p.past (stringText k)) cs ∧
      s'.tokens = .scalar .marked text :: s.tokens ∧ s'.keyAllowed = false ∧
        (s.keyAllowed = true → s'.mark = some ⟨s.tokens.length, p.line, p.column, false⟩) := by
  rw [stringText_eq, List.cons_append, List.append_assoc, List.singleton_append] at hrest
  obtain ⟨chars, hchars, rfl⟩ := Option.map_eq_some_iff.mp htext
  have hread := doubleQuoted_shown k.toList cs [] .empty (p.after '"')
  have hexpired := hs.expired_inFlow ⟨'"', p.line, p.column⟩
  have htoken := token_quote hexpired p.line p.column
    (place (p.after '"') (shown k.toList ++ '"' :: cs))
  rw [hread, show ((p.after '"').column == 0) = false from rfl, hchars] at htoken
  refine ⟨_, hs.steps hrest startsToken_quote htoken ?_,
    hexpired.of_token _ _ false (hexpired.markAt_optional _ _), ?_, rfl, rfl, fun hkey ↦ ?_⟩
  · simp only [length_place]
    simp
    omega
  · rw [stringText_eq]
    rfl
  · rw [show markAt (InFlow.expired s ⟨'"', p.line, p.column⟩) p.line p.column =
      some ⟨s.count, p.line, p.column, false⟩ from if_pos hkey, hs.counted]

/-- A string that is not closed is refused. -/
theorem fails_string (hs : InFlow s (depth + 1)) (k : String)
    (hrest : s.rest = place p (stringText k ++ cs)) (htext : reread k = none) : Fails s := by
  rw [stringText_eq, List.cons_append, List.append_assoc, List.singleton_append] at hrest
  have hread := doubleQuoted_shown k.toList cs [] .empty (p.after '"')
  have htoken := token_quote (hs.expired_inFlow ⟨'"', p.line, p.column⟩) p.line p.column
    (place (p.after '"') (shown k.toList ++ '"' :: cs))
  rw [hread, show ((p.after '"').column == 0) = false from rfl,
    Option.map_eq_none_iff.mp htext] at htoken
  exact hs.fails hrest startsToken_quote htoken

/-- A character of a string ends a line when it is a separator. -/
theorem any_isBreak_escapedChar (c : Char) :
    ((escapedChar c).map lineFeed).any isBreak = isSeparator c := by
  rcases escapedChar_cases c with ⟨hraw, _, _, hcontrol⟩ | ⟨hescaped, _⟩
  · rw [hraw, List.map_singleton, List.any_cons, List.any_nil, Bool.or_false]
    have hgap := isGap_lineFeed hcontrol
    by_cases hspace : c = ' '
    · subst hspace
      rfl
    cases hseparator : isSeparator c with
    | true => exact (isBreak_lineFeed hseparator).1
    | false =>
      rw [hseparator, beq_eq_false_iff_ne.mpr hspace, Bool.or_self, Bool.or_eq_false_iff] at hgap
      exact hgap.2
  · have hprintable := isPrintable_of_mem_escape hescaped
    rw [map_lineFeed_of_isPrintable hprintable, (escaped_ne hescaped).2.1, List.any_eq_false]
    exact fun d hd ↦ by rw [isBreak_of_isPrintable (hprintable d hd)]; exact Bool.false_ne_true

/-- A string is on more than one line when it has a separator. -/
theorem any_isBreak_stringText (k : String) :
    (stringText k).any isBreak = k.toList.any isSeparator := by
  have hshown (cs : List Char) : (shown cs).any isBreak = cs.any isSeparator := by
    induction cs with
    | nil => rfl
    | cons c cs ih => rw [shown_cons, List.any_append, any_isBreak_escapedChar, ih, List.any_cons]
  rw [stringText_eq, List.any_cons, List.any_append, hshown, show isBreak '"' = false from rfl]
  simp [isBreak]

/-- The place of a string as a key is still live at the colon after it when the string fits. -/
theorem live_stringText (k : String) (p : Spot) (n : Nat) :
    live ⟨':', (p.past (stringText k)).line, (p.past (stringText k)).column⟩
        (some ⟨n, p.line, p.column, false⟩) =
      if fitsKey k then some ⟨n, p.line, p.column, false⟩ else none := by
  have hany := any_isBreak_stringText k
  rw [fitsKey, ← hany]
  cases hbreak : (stringText k).any isBreak with
  | true =>
    obtain ⟨c, hmem, hc⟩ := List.any_eq_true.mp hbreak
    have hline := p.line_lt_past hmem hc
    simp [live, Option.filter, hline]
  | false =>
    have hline : p.past (stringText k) = ⟨p.line, p.column + (stringText k).length⟩ :=
      p.past_of_line fun c hc ↦ Bool.eq_false_iff.mpr (List.any_eq_false.mp hbreak c hc)
    have hlength : (stringText k).length = (stringChars k).length := List.length_map _
    by_cases hfits : (stringChars k).length ≤ 1024
    · simp [live, Option.filter, hline, hlength, hfits]
    · simp [live, Option.filter, hline, hlength, hfits]

theorem startsToken_colon : StartsToken ':' := by
  refine ⟨rfl, rfl, ?_, ?_⟩ <;> decide

theorem column_after_ne {c : Char} (hc : isBreak c = false) (p : Spot) :
    (p.after c).column ≠ 0 := by
  rw [Spot.after_of_not_isBreak p hc]
  exact Nat.succ_ne_zero _

/-- A key and the colon after it have the tokens that `keyTokens?` gives. -/
theorem scans_key (hs : InFlow s (depth + 1)) (hkey : s.keyAllowed = true) (k : String)
    (hrest : s.rest = place p (stringText k ++ ':' :: cs)) :
    Scans s (depth + 1) ((p.past (stringText k)).after ':') cs (keyTokens? k) := by
  cases htext : reread k with
  | none =>
    rw [keyTokens?, htext]
    exact fails_string hs k hrest htext
  | some text =>
    obtain ⟨s₁, hsteps, hs₁, hrest₁, htokens₁, _, hmark₁⟩ := steps_string hs k hrest htext
    obtain ⟨⟨line, column⟩, hq⟩ : ∃ q, p.past (stringText k) = q := ⟨_, rfl⟩
    have hexpired := hs₁.expired_inFlow ⟨':', line, column⟩
    have hlive : (InFlow.expired s₁ ⟨':', line, column⟩).mark =
        if fitsKey k then some ⟨s.tokens.length, p.line, p.column, false⟩ else none := by
      have hlive := live_stringText k p s.tokens.length
      rw [hq] at hlive
      rw [InFlow.expired, hmark₁ hkey, hlive]
    have hcolumn := column_after_ne (c := ':') rfl ⟨line, column⟩
    rw [hq] at hrest₁
    rw [keyTokens?, htext, Option.map_some, hq]
    cases hfits : fitsKey k with
    | true =>
      rw [hfits, if_pos rfl] at hlive
      have htoken := token_colon_mark hexpired hlive htokens₁ rfl line column
        (place (Spot.after ⟨line, column⟩ ':') cs)
      refine ⟨_, hsteps.trans (hs₁.steps hrest₁ startsToken_colon htoken ?_), ?_, rfl, ?_, rfl,
        hcolumn⟩
      · exact Nat.le_of_eq (length_place _ _)
      · refine ⟨?_, hexpired.depth, Optional.none, hexpired.optionals, hexpired.outside⟩
        have hcounted := hs₁.counted
        rw [htokens₁] at hcounted
        exact congrArg (· + 2) hcounted
      · rfl
    | false =>
      rw [hfits, if_neg Bool.false_ne_true] at hlive
      have htoken := token_colon_none hexpired hlive line column
        (place (Spot.after ⟨line, column⟩ ':') cs)
      refine ⟨_, hsteps.trans (hs₁.steps hrest₁ startsToken_colon htoken ?_),
        hexpired.of_token _ _ false hexpired.optional, rfl, ?_, rfl, hcolumn⟩
      · exact Nat.le_of_eq (length_place _ _)
      · simp [InFlow.expired, htokens₁]

/-! ### Numbers and words -/

instance (c : Char) : Decidable (IsBare c) := inferInstanceAs (Decidable (_ ∨ _))

theorem isBare_digit {c : Char} (hc : c.isDigit = true) : IsBare c :=
  .inl (by rw [Char.isAlphanum, hc, Bool.or_true])

theorem isBare_toDigits (n : Nat) : ∀ c ∈ Nat.toDigits 10 n, IsBare c :=
  fun _ hc ↦ isBare_digit (Nat.isDigit_of_mem_toDigits (by decide) (by decide) hc)

theorem isBare_integerText (n : Int) :
    (Number.integerText n).toList ≠ [] ∧ ∀ c ∈ (Number.integerText n).toList, IsBare c := by
  cases n with
  | ofNat n =>
    rw [Number.integerText, String.toList_ofList]
    exact ⟨Nat.toDigits_ne_nil, isBare_toDigits n⟩
  | negSucc n =>
    rw [Number.integerText, String.toList_ofList]
    refine ⟨List.cons_ne_nil _ _, fun c hc ↦ ?_⟩
    rcases List.mem_cons.mp hc with rfl | hc
    · decide
    · exact isBare_toDigits _ c hc

theorem isBare_positional {ds : List Char} (hds : ∀ c ∈ ds, IsBare c) (e : Int) :
    Number.positional ds e ≠ [] ∧ ∀ c ∈ Number.positional ds e, IsBare c := by
  have hzero : IsBare '0' := by decide
  have hpoint : IsBare '.' := by decide
  unfold Number.positional
  simp only
  split_ifs
  · refine ⟨List.cons_ne_nil _ _, ?_⟩
    simp only [List.forall_mem_cons, List.forall_mem_append]
    exact ⟨hzero, hpoint, fun c hc ↦ (List.eq_of_mem_replicate hc) ▸ hzero, hds⟩
  · refine ⟨by simp, ?_⟩
    simp only [List.forall_mem_cons, List.forall_mem_append]
    exact ⟨⟨hds, fun c hc ↦ (List.eq_of_mem_replicate hc) ▸ hzero⟩, hpoint, hzero, by simp⟩
  · refine ⟨by simp, ?_⟩
    simp only [List.forall_mem_cons, List.forall_mem_append]
    exact ⟨fun c hc ↦ hds c (List.mem_of_mem_take hc), hpoint,
      fun c hc ↦ hds c (List.mem_of_mem_drop hc)⟩

/-- Holds of the layouts whose own texts are made of bare characters. -/
structure IsBareLayout (layout : Number.FloatLayout) : Prop where
  exponentSign : ∀ c ∈ layout.exponentSign.toList, IsBare c
  infinity : layout.infinity.toList ≠ [] ∧ ∀ c ∈ layout.infinity.toList, IsBare c
  nan : layout.nan.toList ≠ [] ∧ ∀ c ∈ layout.nan.toList, IsBare c

theorem isBareLayout_json : IsBareLayout Number.jsonLayout where
  exponentSign := List.all_iff_forall_prop.mp (by decide)
  infinity := ⟨by decide, List.all_iff_forall_prop.mp (by decide)⟩
  nan := ⟨by decide, List.all_iff_forall_prop.mp (by decide)⟩

theorem isBareLayout_key : IsBareLayout Number.keyLayout where
  exponentSign := List.all_iff_forall_prop.mp (by decide)
  infinity := ⟨by decide, List.all_iff_forall_prop.mp (by decide)⟩
  nan := ⟨by decide, List.all_iff_forall_prop.mp (by decide)⟩

theorem isBare_scientific {layout : Number.FloatLayout} (hlayout : IsBareLayout layout)
    {ds : List Char} (hds : ∀ c ∈ ds, IsBare c) (e : Int) :
    Number.scientific layout ds e ≠ [] ∧ ∀ c ∈ Number.scientific layout ds e, IsBare c := by
  have hpoint : IsBare '.' := by decide
  have hminus : IsBare '-' := by decide
  have hmark : IsBare 'e' := by decide
  unfold Number.scientific
  refine ⟨by simp, ?_⟩
  simp only [List.forall_mem_cons, List.forall_mem_append]
  refine ⟨⟨fun c hc ↦ hds c (List.mem_of_mem_take hc), ?_⟩, hmark, ?_⟩
  · split_ifs
    · simp
    · simp only [List.forall_mem_cons]
      exact ⟨hpoint, fun c hc ↦ hds c (List.mem_of_mem_drop hc)⟩
  · split_ifs
    · simp only [List.forall_mem_cons]
      exact ⟨hminus, isBare_toDigits _⟩
    · simp only [List.forall_mem_append]
      exact ⟨hlayout.exponentSign, isBare_toDigits _⟩

theorem isBare_signed {sign cs : List Char} (hsign : ∀ c ∈ sign, IsBare c)
    (hcs : cs ≠ [] ∧ ∀ c ∈ cs, IsBare c) :
    (String.ofList (sign ++ cs)).toList ≠ [] ∧
      ∀ c ∈ (String.ofList (sign ++ cs)).toList, IsBare c := by
  rw [String.toList_ofList]
  refine ⟨by simp [hcs.1], ?_⟩
  rw [List.forall_mem_append]
  exact ⟨hsign, hcs.2⟩

theorem isBare_floatText {layout : Number.FloatLayout} (hlayout : IsBareLayout layout)
    (x : Number.Double) :
    (layout.text x).toList ≠ [] ∧ ∀ c ∈ (layout.text x).toList, IsBare c := by
  have hsign : ∀ c ∈ (if x.isNegative then ['-'] else []), IsBare c := by
    split_ifs <;> exact List.all_iff_forall_prop.mp (by decide)
  unfold Number.FloatLayout.text
  simp only
  generalize (if x.isNegative then ['-'] else []) = sign at hsign ⊢
  split_ifs
  · exact hlayout.nan
  · exact isBare_signed hsign hlayout.infinity
  · exact isBare_signed hsign ⟨by decide, List.all_iff_forall_prop.mp (by decide)⟩
  · exact isBare_signed hsign (isBare_positional (isBare_toDigits _) _)
  · exact isBare_signed hsign (isBare_scientific hlayout (isBare_toDigits _) _)

/-- A number or a word is not empty and made of bare characters. -/
def IsPlain : Json → Prop
  | .str _ | .arr _ | .obj _ => False
  | _ => True

theorem isBare_chars {v : Json} (hv : IsPlain v) : chars v ≠ [] ∧ ∀ c ∈ chars v, IsBare c := by
  cases v with
  | null => exact ⟨by decide, List.all_iff_forall_prop.mp (by decide)⟩
  | bool b => cases b <;> exact ⟨by decide, List.all_iff_forall_prop.mp (by decide)⟩
  | int n => exact isBare_integerText n.val
  | float x => exact isBare_floatText isBareLayout_json x.val
  | str _ => exact hv.elim
  | arr _ => exact hv.elim
  | obj _ => exact hv.elim

theorem isBare_ne {c d : Char} (hc : IsBare c) (hd : ¬ IsBare d) : c ≠ d := by
  rintro rfl
  exact hd hc

/-- A bare character starts a plain scalar. -/
theorem isBare_starts {c : Char} (hc : IsBare c) : StartsToken c ∧ StartsPlain c := by
  obtain ⟨hblank, hbreak, _, _, hcomment⟩ := isBare_plain hc
  refine ⟨⟨hbreak, hblank, hcomment, isBare_ne hc (by decide)⟩, ?_⟩
  by_cases hminus : c = '-'
  · exact .inr hminus
  · refine .inl ⟨hblank, Bool.eq_false_iff.mpr fun hindicator ↦ ?_⟩
    have hall : ∀ d ∈ "-?:,[]\x7b\x7d#&*!|>'\"%@\x60".toList, d = '-' ∨ ¬ IsBare d :=
      List.all_iff_forall_prop.mp (by decide)
    have hmem : c ∈ "-?:,[]\x7b\x7d#&*!|>'\"%@\x60".toList := by
      simpa [isIndicator, or_assoc] using hindicator
    rcases hall c hmem with h | h
    · exact hminus h
    · exact h hc

end ApiManifest.Json
