import ApiManifest.Json.Compact
import ApiManifest.Proofs.Yaml.DoubleQuoted
import ApiManifest.Proofs.Yaml.Scalar.Gap
import ApiManifest.Yaml.Style
import Mathlib.Data.Bool.AllAny

/-!
JSON strings under a YAML reader. The text between the quotes shows characters that end a line for
the YAML reader (`isSeparator`); it folds the blanks around them, makes a line feed of U+0085, and
takes a run of hyphens or dots after them for the mark of a document. `reread` says what comes out
(`doubleQuoted_shown`), and `reread_eq_some_iff` which texts come out as they went in.
-/

set_option autoImplicit false
set_option relaxedAutoImplicit false

namespace ApiManifest.Json

open Yaml

/-- Holds of the characters that a JSON string shows as they are and that end a line of YAML. -/
def isSeparator (c : Char) : Bool := c == '\u0085' || c == '\u2028' || c == '\u2029'

/-- The characters of a text between the quotes of a string, with breaks made alike. -/
def shown (cs : List Char) : List Char := (cs.flatMap escapedChar).map lineFeed

/-- Whether a number of the same character stands at the head of a text, with a space or the end of
a line after them. -/
def startsRun (c : Char) : Nat → List Char → Bool
  | 0, [] => false
  | 0, d :: _ => d == ' ' || isSeparator d
  | _ + 1, [] => false
  | n + 1, d :: cs => d == c && startsRun c n cs

/-- Whether a line that starts with the text would start or end a document. -/
def startsMark (cs : List Char) : Bool := startsRun '-' 3 cs || startsRun '.' 3 cs

/-- What a YAML reader makes of the text of a string; `margin` tells that a line starts here. -/
def rereadFrom (read : List Char) (gap : Gap) (margin : Bool) : List Char → Option (List Char)
  | [] => some (gap.flush read).reverse
  | c :: cs =>
    if c == ' ' then rereadFrom read (gap.addBlank ' ') false cs
    else if isSeparator c then rereadFrom read (gap.addBreak (lineFeed c)) true cs
    else if margin && startsMark (c :: cs) then none
    else rereadFrom (c :: gap.flush read) .empty false cs

/-- What a YAML reader makes of a string, if it finds its end. -/
def reread (s : String) : Option String :=
  (rereadFrom [] .empty false s.toList).map String.ofList

@[simp] theorem shown_nil : shown [] = [] := rfl

theorem shown_cons (c : Char) (cs : List Char) :
    shown (c :: cs) = (escapedChar c).map lineFeed ++ shown cs := by
  rw [shown, List.flatMap_cons, List.map_append, shown]

/-- How a character stands in a string: as it is, by a letter, or by its number. -/
theorem escapedChar_cases (c : Char) :
    (escapedChar c = [c] ∧ c ≠ '"' ∧ c ≠ '\\' ∧ ¬ c < ' ') ∨
      ((c = '"' ∨ c = '\\' ∨ c < ' ') ∧
        ((∃ letter, escapedChar c = ['\\', letter] ∧ letter ∈ "\"\\bfnrt".toList ∧
            shortEscape? letter = some c) ∨
          escapedChar c = '\\' :: 'u' :: Text.hexFixed Text.hexDigit 4 c.toNat ∧
            c.toNat < 16 ^ 4)) := by
  unfold escapedChar
  split
  · exact .inr ⟨by decide, .inl ⟨'"', rfl, by decide, rfl⟩⟩
  · exact .inr ⟨by decide, .inl ⟨'\\', rfl, by decide, rfl⟩⟩
  · exact .inr ⟨by decide, .inl ⟨'b', rfl, by decide, rfl⟩⟩
  · exact .inr ⟨by decide, .inl ⟨'f', rfl, by decide, rfl⟩⟩
  · exact .inr ⟨by decide, .inl ⟨'n', rfl, by decide, rfl⟩⟩
  · exact .inr ⟨by decide, .inl ⟨'r', rfl, by decide, rfl⟩⟩
  · exact .inr ⟨by decide, .inl ⟨'t', rfl, by decide, rfl⟩⟩
  · rename_i hquote hslash _ _ _ _ _
    split_ifs with hcontrol
    · have hbound : c.toNat < 0x20 := hcontrol
      exact .inr ⟨.inr (.inr hcontrol), .inr ⟨rfl, by omega⟩⟩
    · exact .inl ⟨rfl, hquote, hslash, hcontrol⟩

theorem length_escapedChar_pos (c : Char) : 0 < (escapedChar c).length := by
  rcases escapedChar_cases c with ⟨heq, _⟩ | ⟨_, ⟨letter, heq, _⟩ | ⟨heq, _⟩⟩
  all_goals
    rw [heq]
    exact Nat.succ_pos _

/-- Holds of the ASCII characters that are no controls. -/
def IsPrintable (c : Char) : Prop := 0x20 ≤ c.toNat ∧ c.toNat < 0x7F

instance (c : Char) : Decidable (IsPrintable c) := inferInstanceAs (Decidable (_ ∧ _))

theorem isBreak_of_isPrintable {c : Char} (hc : IsPrintable c) : isBreak c = false := by
  simp only [isBreak, Bool.or_eq_false_iff, beq_eq_false_iff_ne]
  refine ⟨⟨?_, ?_⟩, ?_⟩
  all_goals
    rintro rfl
    exact absurd hc (by decide)

theorem map_lineFeed_of_isPrintable {cs : List Char} (hcs : ∀ c ∈ cs, IsPrintable c) :
    cs.map lineFeed = cs :=
  map_lineFeed fun h ↦ absurd (hcs _ h) (by decide)

theorem isPrintable_hexDigit {d : Nat} (hd : d < 16) : IsPrintable (Text.hexDigit d) := by
  interval_cases d <;> decide

theorem isPrintable_hexFixed (width n : Nat) :
    ∀ c ∈ Text.hexFixed Text.hexDigit width n, IsPrintable c := by
  induction width generalizing n with
  | zero => exact fun c hc ↦ absurd hc List.not_mem_nil
  | succ width ih =>
    intro c hc
    rcases List.mem_append.mp hc with hc | hc
    · exact ih _ c hc
    · rw [List.mem_singleton.mp hc]
      exact isPrintable_hexDigit (Nat.mod_lt _ (by decide))

/-- An escape is made of ASCII characters that are no controls. -/
theorem isPrintable_of_mem_escape {c : Char} (hc : c = '"' ∨ c = '\\' ∨ c < ' ') :
    ∀ d ∈ escapedChar c, IsPrintable d := by
  have hletters : ∀ d ∈ "\"\\bfnrt".toList, IsPrintable d :=
    List.all_iff_forall_prop.mp (by decide)
  rcases escapedChar_cases c with
    ⟨_, hquote, hslash, hcontrol⟩ | ⟨_, ⟨letter, heq, hletter, _⟩ | ⟨heq, _⟩⟩
  · rcases hc with h | h | h
    · exact absurd h hquote
    · exact absurd h hslash
    · exact absurd h hcontrol
  · rw [heq]
    intro d hd
    rcases List.mem_cons.mp hd with rfl | hd
    · decide
    · rw [List.mem_singleton.mp hd]
      exact hletters letter hletter
  · rw [heq]
    intro d hd
    rcases List.mem_cons.mp hd with rfl | hd
    · decide
    · rcases List.mem_cons.mp hd with rfl | hd
      · decide
      · exact isPrintable_hexFixed 4 c.toNat d hd

/-- A character that is escaped neither separates nor marks anything. -/
theorem escaped_ne {c : Char} (hc : c = '"' ∨ c = '\\' ∨ c < ' ') :
    c ≠ ' ' ∧ isSeparator c = false ∧ c ≠ '-' ∧ c ≠ '.' := by
  have hlt : c.toNat < 0x20 ∨ c.toNat = 0x22 ∨ c.toNat = 0x5C := by
    rcases hc with rfl | rfl | hc
    · exact .inr (.inl rfl)
    · exact .inr (.inr rfl)
    · exact .inl hc
  refine ⟨?_, ?_, ?_, ?_⟩
  · rintro rfl
    exact absurd hlt (by decide)
  · unfold isSeparator
    simp only [Bool.or_eq_false_iff, beq_eq_false_iff_ne]
    refine ⟨⟨?_, ?_⟩, ?_⟩
    all_goals
      rintro rfl
      exact absurd hlt (by decide)
  · rintro rfl
    exact absurd hlt (by decide)
  · rintro rfl
    exact absurd hlt (by decide)

/-- An escape starts with a backslash. -/
theorem shown_cons_of_escaped {c : Char} (hc : c = '"' ∨ c = '\\' ∨ c < ' ') (cs : List Char) :
    ∃ rest, shown (c :: cs) = '\\' :: rest := by
  rw [shown_cons]
  rcases escapedChar_cases c with ⟨_, hquote, hslash, hcontrol⟩ | ⟨_, ⟨letter, heq, _⟩ | ⟨heq, _⟩⟩
  · rcases hc with h | h | h
    · exact absurd h hquote
    · exact absurd h hslash
    · exact absurd h hcontrol
  · exact ⟨_, by rw [heq, List.map_cons, List.cons_append]; rfl⟩
  · exact ⟨_, by rw [heq, List.map_cons, List.cons_append]; rfl⟩

theorem shown_cons_of_raw {c : Char} (hc : escapedChar c = [c]) (cs : List Char) :
    shown (c :: cs) = lineFeed c :: shown cs := by
  rw [shown_cons, hc, List.map_singleton, List.singleton_append]

/-- A raw character is a blank or a break for a YAML reader when it is a space or a separator. -/
theorem isGap_lineFeed {c : Char} (hc : ¬ c < ' ') :
    (isBlank (lineFeed c) || isBreak (lineFeed c)) = (c == ' ' || isSeparator c) := by
  have htab : (c == '\t') = false := by
    refine beq_eq_false_iff_ne.mpr ?_
    rintro rfl
    exact hc (by decide)
  have hfeed : (c == '\n') = false := by
    refine beq_eq_false_iff_ne.mpr ?_
    rintro rfl
    exact hc (by decide)
  by_cases hnext : c = '\u0085'
  · subst hnext
    rfl
  · rw [lineFeed_of_ne hnext, isBlank, isBreak, isSeparator, htab, hfeed,
      beq_eq_false_iff_ne.mpr hnext, Bool.or_false, Bool.false_or]

/-- A run ahead of a YAML reader is a run of the text. -/
theorem opensRun_shown {c : Char} (hc : c = '-' ∨ c = '.') (n : Nat) (cs rest : List Char) :
    opensRun c n (shown cs ++ '"' :: rest) = startsRun c n cs := by
  have hquote : ('"' == c) = false := by rcases hc with rfl | rfl <;> rfl
  have hslash : ('\\' == c) = false := by rcases hc with rfl | rfl <;> rfl
  induction n generalizing cs with
  | zero =>
    cases cs with
    | nil => rfl
    | cons d ds =>
      rcases escapedChar_cases d with ⟨hraw, _, _, hcontrol⟩ | ⟨hescaped, _⟩
      · rw [shown_cons_of_raw hraw, List.cons_append, opensRun, opensGap, isGap_lineFeed hcontrol,
          startsRun]
      · obtain ⟨tail, htail⟩ := shown_cons_of_escaped hescaped ds
        obtain ⟨hspace, hseparator, _⟩ := escaped_ne hescaped
        rw [htail, startsRun, hseparator, beq_eq_false_iff_ne.mpr hspace]
        rfl
  | succ n ih =>
    cases cs with
    | nil => rw [shown_nil, List.nil_append, opensRun, hquote, Bool.false_and, startsRun]
    | cons d ds =>
      rcases escapedChar_cases d with ⟨hraw, _⟩ | ⟨hescaped, _⟩
      · have hsame : (lineFeed d == c) = (d == c) := by
          unfold lineFeed
          split_ifs with hnext
          · subst hnext
            rcases hc with rfl | rfl <;> rfl
          · rfl
        rw [shown_cons_of_raw hraw, List.cons_append, opensRun, ih, hsame, startsRun]
      · obtain ⟨tail, htail⟩ := shown_cons_of_escaped hescaped ds
        obtain ⟨_, _, hhyphen, hdot⟩ := escaped_ne hescaped
        have hne : (d == c) = false := by
          rcases hc with rfl | rfl
          · exact beq_eq_false_iff_ne.mpr hhyphen
          · exact beq_eq_false_iff_ne.mpr hdot
        rw [htail, List.cons_append, opensRun, hslash, startsRun, hne, Bool.false_and,
          Bool.false_and]

theorem opensDocumentMark_shown (cs rest : List Char) :
    opensDocumentMark (shown cs ++ '"' :: rest) = startsMark cs := by
  rw [opensDocumentMark, opensRun_shown (.inl rfl), opensRun_shown (.inr rfl), startsMark]

/-- A YAML reader takes an escape for the character that is escaped. -/
theorem doubleQuoted_escaped {c : Char} (hc : c = '"' ∨ c = '\\' ∨ c < ' ') (read : List Char)
    (gap : Gap) (p : Spot) (cs : List Char) :
    doubleQuoted read gap .between (place p (escapedChar c ++ cs)) =
      doubleQuoted (c :: gap.flush read) .empty .between (place (p.past (escapedChar c)) cs) := by
  rcases escapedChar_cases c with
    ⟨_, hquote, hslash, hcontrol⟩ | ⟨_, ⟨letter, heq, hletter, hshort⟩ | ⟨heq, hbound⟩⟩
  · rcases hc with h | h | h
    · exact absurd h hquote
    · exact absurd h hslash
    · exact absurd h hcontrol
  · have hbreak : isBreak letter = false := by
      have hall : ∀ d ∈ "\"\\bfnrt".toList, isBreak d = false :=
        List.all_iff_forall_prop.mp (by decide)
      exact hall letter hletter
    rw [heq]
    exact doubleQuoted_short hbreak hshort
  · rw [heq]
    exact doubleQuoted_numbered (fun _ ↦ Text.hexValue?_hexDigit) rfl rfl rfl hbound cs

theorem isBreak_lineFeed {c : Char} (hc : isSeparator c = true) :
    isBreak (lineFeed c) = true ∧ isBlank (lineFeed c) = false := by
  simp only [isSeparator, Bool.or_eq_true, beq_iff_eq] at hc
  rcases hc with (rfl | rfl) | rfl <;> decide

/-- A YAML reader that stands between the quotes of a string makes of the rest what `rereadFrom`
says, and goes on after the closing quote. -/
theorem doubleQuoted_shown (cs rest read : List Char) (gap : Gap) (p : Spot) :
    doubleQuoted read gap .between (place p (shown cs ++ '"' :: rest)) =
      (rereadFrom read gap (p.column == 0) cs).elim (.error .unclosed) fun text ↦
        .ok (text, place (p.past (shown cs ++ ['"'])) rest) := by
  induction cs generalizing read gap p with
  | nil => exact doubleQuoted_quote
  | cons c cs ih =>
    have hmark : documentMarkAhead (place p (shown (c :: cs) ++ '"' :: rest)) =
        (p.column == 0 && startsMark (c :: cs)) := by
      rw [documentMarkAhead_place, opensDocumentMark_shown]
    rcases escapedChar_cases c with ⟨hraw, hquote, hslash, hcontrol⟩ | ⟨hescaped, _⟩
    · rw [shown_cons_of_raw hraw, List.cons_append, List.cons_append, Spot.past_cons] at *
      by_cases hspace : c = ' '
      · subst hspace
        have hcolumn : ((p.after ' ').column == 0) = false := rfl
        rw [show lineFeed ' ' = ' ' from rfl, doubleQuoted_blank rfl, ih, hcolumn, rereadFrom]
        rfl
      by_cases hseparator : isSeparator c = true
      · obtain ⟨hbreak, hblank⟩ := isBreak_lineFeed hseparator
        have hcolumn : ((p.after (lineFeed c)).column == 0) = true := by
          rw [Spot.after_of_isBreak p hbreak]
          rfl
        rw [doubleQuoted_break hbreak hblank, ih, hcolumn, rereadFrom,
          beq_eq_false_iff_ne.mpr hspace, hseparator]
        rfl
      · have hgap := isGap_lineFeed hcontrol
        have hsame : lineFeed c = c := by
          refine lineFeed_of_ne ?_
          rintro rfl
          exact hseparator rfl
        rw [Bool.not_eq_true] at hseparator
        rw [hsame] at hgap hmark ⊢
        rw [beq_eq_false_iff_ne.mpr hspace, hseparator, Bool.or_false, Bool.or_eq_false_iff] at hgap
        rw [rereadFrom, beq_eq_false_iff_ne.mpr hspace, hseparator]
        simp only [Bool.false_eq_true, if_false]
        cases hstarts : p.column == 0 && startsMark (c :: cs) with
        | true =>
          rw [hstarts] at hmark
          rw [doubleQuoted_mark hgap.2 hgap.1 hmark]
          rfl
        | false =>
          rw [hstarts] at hmark
          have hcolumn : ((p.after c).column == 0) = false := by
            rw [Spot.after_of_not_isBreak p hgap.2]
            rfl
          rw [doubleQuoted_char hgap.2 hgap.1 hmark hquote hslash, ih, hcolumn]
          rfl
    · obtain ⟨hspace, hseparator, hhyphen, hdot⟩ := escaped_ne hescaped
      have hstarts : startsMark (c :: cs) = false := by
        rw [startsMark, startsRun, startsRun, beq_eq_false_iff_ne.mpr hhyphen,
          beq_eq_false_iff_ne.mpr hdot, Bool.false_and, Bool.false_and, Bool.or_false]
      have hprintable := isPrintable_of_mem_escape hescaped
      have hcolumn : ((p.past (escapedChar c)).column == 0) = false := by
        rw [Spot.past_of_line p fun d hd ↦ isBreak_of_isPrintable (hprintable d hd)]
        refine beq_eq_false_iff_ne.mpr ?_
        have hlength := length_escapedChar_pos c
        simp only
        omega
      rw [shown_cons, map_lineFeed_of_isPrintable hprintable, List.append_assoc,
        doubleQuoted_escaped hescaped, ih, hcolumn, rereadFrom,
        beq_eq_false_iff_ne.mpr hspace, hseparator, hstarts, Bool.and_false, List.append_assoc]
      simp only [Bool.false_eq_true, if_false, Spot.past_append]

/-! ### Strings that come out as they went in -/

/-- Whether a line that starts inside the text would start or end a document. -/
def hasMarkedLine : List Char → Bool
  | [] => false
  | c :: cs => (isSeparator c && startsMark cs) || hasMarkedLine cs

/-- Holds of two neighbours when one is a space and the other ends a line. -/
def isFolded (a b : Char) : Bool := (a == ' ' && isSeparator b) || (isSeparator a && b == ' ')

/-- Holds of the texts that a YAML reader takes from a JSON string as they are: no U+0085, no space
beside the end of a line, and no line that starts like the mark of a document. -/
structure KeepsLines (cs : List Char) : Prop where
  nextLine : '\u0085' ∉ cs
  folded : hasNeighbours isFolded cs = false
  marked : hasMarkedLine cs = false

instance (cs : List Char) : Decidable (KeepsLines cs) :=
  decidable_of_iff ('\u0085' ∉ cs ∧ hasNeighbours isFolded cs = false ∧ hasMarkedLine cs = false)
    ⟨fun h ↦ ⟨h.1, h.2.1, h.2.2⟩, fun h ↦ ⟨h.nextLine, h.folded, h.marked⟩⟩

/-- A text without separators keeps its lines. -/
theorem keepsLines_of_forall {cs : List Char} (h : ∀ c ∈ cs, isSeparator c = false) :
    KeepsLines cs := by
  refine ⟨fun hmem ↦ absurd (h _ hmem) (by decide), ?_, ?_⟩
  · induction cs with
    | nil => rfl
    | cons a rest ih =>
      cases rest with
      | nil => rfl
      | cons b rest =>
        have hrest := ih fun c hc ↦ h c (List.mem_cons_of_mem a hc)
        rw [hasNeighbours, hrest, isFolded, h a List.mem_cons_self,
          h b (List.mem_cons_of_mem a List.mem_cons_self), Bool.and_false, Bool.false_and]
        rfl
  · induction cs with
    | nil => rfl
    | cons c rest ih =>
      rw [hasMarkedLine, h c List.mem_cons_self, ih fun d hd ↦ h d (List.mem_cons_of_mem c hd)]
      rfl

/-- Holds of the gaps that a reader collects from spaces, and from separators other than U+0085. -/
def IsFaithful : Gap → Prop
  | .blanks passed => ∀ c ∈ passed, c = ' '
  | .broken none _ => False
  | .broken (some c) _ => isSeparator c = true ∧ c ≠ '\n'

/-- The last character of a gap, if it has one. -/
def edge : Gap → List Char
  | .blanks [] => []
  | .blanks (c :: _) => [c]
  | .broken none _ => []
  | .broken (some c) _ => [c]

/-- A gap with one more character stands for at most one more character. -/
theorem length_flush_add_le (read : List Char) (gap : Gap) (c : Char) :
    ((gap.addBlank c).flush read).length ≤ (gap.flush read).length + 1 ∧
      ((gap.addBreak c).flush read).length ≤ (gap.flush read).length + 1 := by
  have hbroken (first : Char) (more : List Char) :
      ((Gap.broken (some first) (c :: more)).flush read).length ≤
        ((Gap.broken (some first) more).flush read).length + 1 := by
    by_cases hfeed : first = '\n'
    · subst hfeed
      cases more with
      | nil => simp [Gap.flush]
      | cons d more => simp [Gap.flush]
    · rw [flush_broken hfeed, flush_broken hfeed]
      simp
  have hfirst : ((Gap.broken (some c) []).flush read).length = read.length + 1 := by
    by_cases hfeed : c = '\n'
    · subst hfeed
      rfl
    · rw [flush_broken hfeed]
      rfl
  cases gap with
  | blanks passed =>
    refine ⟨by simp [Gap.addBlank, Gap.flush], ?_⟩
    rw [Gap.addBreak, hfirst]
    simp [Gap.flush]
  | broken first more =>
    refine ⟨Nat.le_succ _, ?_⟩
    cases first with
    | none => simp [Gap.addBreak, Gap.flush]
    | some first => exact hbroken first more

/-- A reader makes no text longer. -/
theorem length_rereadFrom_le (cs : List Char) (read : List Char) (gap : Gap) (margin : Bool)
    (text : List Char) (htext : rereadFrom read gap margin cs = some text) :
    text.length ≤ (gap.flush read).length + cs.length := by
  induction cs generalizing read gap margin with
  | nil =>
    rw [rereadFrom, Option.some_inj] at htext
    rw [← htext, List.length_reverse]
    exact Nat.le_refl _
  | cons c cs ih =>
    rw [rereadFrom] at htext
    split_ifs at htext
    · have hflush := (length_flush_add_le read gap ' ').1
      have hrest := ih read _ _ htext
      rw [List.length_cons]
      omega
    · have hflush := (length_flush_add_le read gap (lineFeed c)).2
      have hrest := ih read _ _ htext
      rw [List.length_cons]
      omega
    · have hrest := ih _ _ _ htext
      have hflush : ((Gap.empty).flush (c :: gap.flush read)).length =
          (gap.flush read).length + 1 := rfl
      rw [List.length_cons]
      omega

/-- A break adds to what a gap stands for itself or a space, and nothing else. -/
theorem mem_flush_addBreak {c d : Char} {read : List Char} {gap : Gap}
    (hd : d ∈ (gap.addBreak c).flush read) : d = c ∨ d = ' ' ∨ d ∈ gap.flush read := by
  cases gap with
  | blanks passed =>
    by_cases hfeed : c = '\n'
    · subst hfeed
      simp only [Gap.addBreak, Gap.flush, List.mem_cons, List.mem_append] at hd ⊢
      tauto
    · rw [Gap.addBreak, flush_broken hfeed] at hd
      simp only [Gap.flush, List.mem_cons, List.mem_append, List.not_mem_nil] at hd ⊢
      tauto
  | broken first more =>
    cases first with
    | none =>
      simp only [Gap.addBreak, Gap.flush, List.mem_cons, List.mem_append] at hd ⊢
      tauto
    | some first =>
      by_cases hfeed : first = '\n'
      · subst hfeed
        cases more with
        | nil =>
          simp only [Gap.addBreak, Gap.flush, List.mem_cons, List.mem_append,
            List.not_mem_nil] at hd ⊢
          tauto
        | cons e more =>
          simp only [Gap.addBreak, Gap.flush, List.mem_cons, List.mem_append] at hd ⊢
          tauto
      · rw [Gap.addBreak, flush_broken hfeed] at hd
        rw [flush_broken hfeed]
        simp only [List.mem_cons, List.mem_append] at hd ⊢
        tauto

/-- No text comes out with U+0085 in it. -/
theorem nextLine_not_mem_rereadFrom (cs : List Char) (read : List Char) (gap : Gap) (margin : Bool)
    (text : List Char) (htext : rereadFrom read gap margin cs = some text)
    (hgap : '\u0085' ∉ gap.flush read) : '\u0085' ∉ text := by
  induction cs generalizing read gap margin with
  | nil =>
    rw [rereadFrom, Option.some_inj] at htext
    rw [← htext, List.mem_reverse]
    exact hgap
  | cons c cs ih =>
    rw [rereadFrom] at htext
    split_ifs at htext with hspace hseparator hmark
    · refine ih read _ _ htext ?_
      cases gap with
      | blanks passed =>
        simp only [Gap.addBlank, Gap.flush, List.cons_append, List.mem_cons, not_or]
        exact ⟨by decide, hgap⟩
      | broken first more => exact hgap
    · refine ih read _ _ htext fun hmem ↦ ?_
      rcases mem_flush_addBreak hmem with h | h | h
      · unfold lineFeed at h
        split_ifs at h with hnext
        · exact absurd h (by decide)
        · exact hnext h.symm
      · exact absurd h (by decide)
      · exact hgap h
    · refine ih _ _ _ htext fun hmem ↦ ?_
      rcases List.mem_cons.mp hmem with rfl | h
      · exact hseparator rfl
      · exact hgap h

theorem startsMark_cons_of_ne {c : Char} (hhyphen : c ≠ '-') (hdot : c ≠ '.') (cs : List Char) :
    startsMark (c :: cs) = false := by
  rw [startsMark, startsRun, startsRun, beq_eq_false_iff_ne.mpr hhyphen,
    beq_eq_false_iff_ne.mpr hdot, Bool.false_and, Bool.false_and, Bool.or_false]

theorem separator_ne {c : Char} (hc : isSeparator c = true) : c ≠ ' ' ∧ c ≠ '-' ∧ c ≠ '.' := by
  refine ⟨?_, ?_, ?_⟩
  all_goals
    rintro rfl
    exact absurd hc (by decide)

/-- The neighbours in a text after a gap: the edge of the gap and the first character are two. -/
theorem hasNeighbours_edge (gap : Gap) (c : Char) (cs : List Char) :
    hasNeighbours isFolded (edge gap ++ c :: cs) =
      ((edge gap).any (isFolded · c) || hasNeighbours isFolded (c :: cs)) := by
  rcases gap with (_ | ⟨d, passed⟩) | ⟨_ | d, more⟩ <;> simp [edge, hasNeighbours]

theorem isFolded_of_isSeparator {c : Char} (hc : isSeparator c = true) (d : Char) :
    isFolded c d = (d == ' ') := by
  rw [isFolded, beq_eq_false_iff_ne.mpr (separator_ne hc).1, hc, Bool.false_and, Bool.false_or,
    Bool.true_and]

/-- The gap with one more space or separator. -/
def extend (gap : Gap) (c : Char) : Gap :=
  if c == ' ' then gap.addBlank ' ' else gap.addBreak (lineFeed c)

theorem rereadFrom_cons_gap {c : Char} (hc : c = ' ' ∨ isSeparator c = true) (read : List Char)
    (gap : Gap) (margin : Bool) (cs : List Char) :
    rereadFrom read gap margin (c :: cs) = rereadFrom read (extend gap c) (isSeparator c) cs := by
  rw [rereadFrom, extend]
  rcases hc with rfl | hc
  · rfl
  · rw [beq_eq_false_iff_ne.mpr (separator_ne hc).1, hc]
    rfl

/-- A faithful gap keeps a character that its edge does not fold, and stays faithful. -/
theorem extend_faithful {gap : Gap} (hgap : IsFaithful gap) {c : Char}
    (hc : c = ' ' ∨ isSeparator c = true) (hnext : c ≠ '\u0085')
    (hedge : (edge gap).any (isFolded · c) = false) :
    IsFaithful (extend gap c) ∧
      (∀ read, (extend gap c).flush read = c :: gap.flush read) ∧
        ∀ d, (edge (extend gap c)).any (isFolded · d) = isFolded c d := by
  rcases hc with rfl | hc
  · cases gap with
    | blanks passed =>
      refine ⟨fun d hd ↦ ?_, fun read ↦ rfl, fun d ↦ Bool.or_false _⟩
      rcases List.mem_cons.mp hd with rfl | hd
      · rfl
      · exact hgap d hd
    | broken first more =>
      cases first with
      | none => exact hgap.elim
      | some first => simp [edge, isFolded, hgap.1] at hedge
  · have hfeed : c ≠ '\n' := by
      rintro rfl
      exact absurd hc (by decide)
    have hextend : extend gap c = gap.addBreak c := by
      rw [extend, beq_eq_false_iff_ne.mpr (separator_ne hc).1, lineFeed_of_ne hnext]
      rfl
    rw [hextend]
    rcases gap with (_ | ⟨e, passed⟩) | ⟨_ | first, more⟩
    · refine ⟨⟨hc, hfeed⟩, fun read ↦ flush_broken hfeed [] read, fun d ↦ ?_⟩
      exact Bool.or_false _
    · rw [hgap e List.mem_cons_self] at hedge
      simp [edge, isFolded, hc] at hedge
    · exact hgap.elim
    · refine ⟨hgap, fun read ↦ ?_, fun d ↦ ?_⟩
      · rw [Gap.addBreak, flush_broken hgap.2, flush_broken hgap.2, List.cons_append]
      · simp [Gap.addBreak, edge, isFolded_of_isSeparator hgap.1, isFolded_of_isSeparator hc]

/-- A faithful gap loses a character that its edge folds. -/
theorem length_flush_extend_le {gap : Gap} (hgap : IsFaithful gap) {c : Char}
    (hc : c = ' ' ∨ isSeparator c = true) (hedge : (edge gap).any (isFolded · c) = true)
    (read : List Char) : ((extend gap c).flush read).length ≤ (gap.flush read).length := by
  rcases hc with rfl | hc
  · rcases gap with (_ | ⟨e, passed⟩) | ⟨first, more⟩
    · exact absurd hedge Bool.false_ne_true
    · rw [hgap e List.mem_cons_self] at hedge
      exact absurd hedge Bool.false_ne_true
    · exact Nat.le_refl _
  · have hextend : extend gap c = gap.addBreak (lineFeed c) := by
      rw [extend, beq_eq_false_iff_ne.mpr (separator_ne hc).1]
      rfl
    rw [hextend]
    rcases gap with (_ | ⟨e, passed⟩) | ⟨_ | first, more⟩
    · exact absurd hedge Bool.false_ne_true
    · have hbound := (length_flush_add_le read (.blanks []) (lineFeed c)).2
      refine le_trans hbound ?_
      simp [Gap.flush]
    · exact hgap.elim
    · rw [edge, List.any_cons, isFolded_of_isSeparator hgap.1,
        beq_eq_false_iff_ne.mpr (separator_ne hc).1] at hedge
      exact absurd hedge Bool.false_ne_true

/-- From any faithful gap on, a text without U+0085 comes out as it went in when no space stands
beside the end of a line and no line starts with a mark. -/
theorem rereadFrom_eq_some_iff (cs : List Char) (hcs : '\u0085' ∉ cs) (read : List Char) (gap : Gap)
    (hgap : IsFaithful gap) (margin : Bool) :
    rereadFrom read gap margin cs = some ((gap.flush read).reverse ++ cs) ↔
      hasNeighbours isFolded (edge gap ++ cs) = false ∧ (margin && startsMark cs) = false ∧
        hasMarkedLine cs = false := by
  induction cs generalizing read gap margin with
  | nil =>
    have hedge : hasNeighbours isFolded (edge gap) = false := by
      rcases gap with (_ | ⟨c, passed⟩) | ⟨_ | c, more⟩ <;> rfl
    simp [rereadFrom, hedge, startsMark, startsRun, hasMarkedLine]
  | cons c cs ih =>
    have hrest : '\u0085' ∉ cs := fun h ↦ hcs (List.mem_cons_of_mem c h)
    have hnext : c ≠ '\u0085' := fun h ↦ hcs (h ▸ List.mem_cons_self)
    rw [hasNeighbours_edge, hasMarkedLine]
    by_cases hc : c = ' ' ∨ isSeparator c = true
    · have hmark : startsMark (c :: cs) = false := by
        rcases hc with rfl | hc
        · exact startsMark_cons_of_ne (by decide) (by decide) cs
        · exact startsMark_cons_of_ne (separator_ne hc).2.1 (separator_ne hc).2.2 cs
      rw [rereadFrom_cons_gap hc, hmark, Bool.and_false]
      cases hedge : (edge gap).any (isFolded · c) with
      | false =>
        obtain ⟨hfaithful, hflush, hnew⟩ := extend_faithful hgap hc hnext hedge
        have hiff := ih hrest read (extend gap c) hfaithful (isSeparator c)
        have hpair : hasNeighbours isFolded (edge (extend gap c) ++ cs) =
            hasNeighbours isFolded (c :: cs) := by
          cases cs with
          | nil => rcases extend gap c with (_ | ⟨e, passed⟩) | ⟨_ | e, more⟩ <;> rfl
          | cons d cs => rw [hasNeighbours_edge, hnew, hasNeighbours]
        rw [hflush, hpair, List.reverse_cons, List.append_assoc, List.singleton_append] at hiff
        rw [hiff, Bool.false_or, Bool.or_eq_false_iff]
        tauto
      | true =>
        refine iff_of_false (fun htext ↦ ?_) (fun h ↦ absurd h.1 (by simp))
        have hbound := length_rereadFrom_le _ _ _ _ _ htext
        have hflush := length_flush_extend_le hgap hc hedge read
        rw [List.length_append, List.length_reverse, List.length_cons] at hbound
        omega
    · rw [not_or, Bool.not_eq_true] at hc
      have hedge : (edge gap).any (isFolded · c) = false := by
        rcases gap with (_ | ⟨e, passed⟩) | ⟨_ | e, more⟩ <;>
          simp [edge, isFolded, hc.1, hc.2]
      have hpair : hasNeighbours isFolded (c :: cs) = hasNeighbours isFolded cs := by
        cases cs with
        | nil => rfl
        | cons d cs => simp [hasNeighbours, isFolded, hc.1, hc.2]
      rw [rereadFrom, beq_eq_false_iff_ne.mpr hc.1, hc.2, hedge, hpair, Bool.false_or,
        Bool.false_and, Bool.false_or]
      simp only [Bool.false_eq_true, if_false]
      cases hmark : margin && startsMark (c :: cs) with
      | true => simp
      | false =>
        have hiff := ih hrest (c :: gap.flush read) .empty
          (fun d hd ↦ absurd hd List.not_mem_nil) false
        have hflush : (Gap.empty).flush (c :: gap.flush read) = c :: gap.flush read := rfl
        rw [hflush, List.reverse_cons, List.append_assoc, List.singleton_append] at hiff
        rw [if_neg Bool.false_ne_true, hiff]
        rfl

/-- From any faithful gap on, a text without U+0085 comes out as it went in or is shorter. -/
theorem rereadFrom_eq_or_shorter (cs : List Char) (hcs : '\u0085' ∉ cs) (read : List Char)
    (gap : Gap) (hgap : IsFaithful gap) (margin : Bool) (text : List Char)
    (htext : rereadFrom read gap margin cs = some text) :
    text = (gap.flush read).reverse ++ cs ∨ text.length < (gap.flush read).length + cs.length := by
  induction cs generalizing read gap margin with
  | nil =>
    rw [rereadFrom, Option.some_inj] at htext
    rw [← htext, List.append_nil]
    exact .inl rfl
  | cons c cs ih =>
    have hrest : '\u0085' ∉ cs := fun h ↦ hcs (List.mem_cons_of_mem c h)
    have hnext : c ≠ '\u0085' := fun h ↦ hcs (h ▸ List.mem_cons_self)
    by_cases hc : c = ' ' ∨ isSeparator c = true
    · rw [rereadFrom_cons_gap hc] at htext
      cases hedge : (edge gap).any (isFolded · c) with
      | false =>
        obtain ⟨hfaithful, hflush, _⟩ := extend_faithful hgap hc hnext hedge
        have hextended := ih hrest read (extend gap c) hfaithful _ htext
        rw [hflush, List.reverse_cons, List.append_assoc, List.singleton_append, List.length_cons]
          at hextended
        refine hextended.imp_right fun h ↦ ?_
        rw [List.length_cons]
        omega
      | true =>
        have hbound := length_rereadFrom_le _ _ _ _ _ htext
        have hflush := length_flush_extend_le hgap hc hedge read
        refine .inr ?_
        rw [List.length_cons]
        omega
    · rw [not_or, Bool.not_eq_true] at hc
      rw [rereadFrom, beq_eq_false_iff_ne.mpr hc.1, hc.2] at htext
      simp only [Bool.false_eq_true, if_false] at htext
      split_ifs at htext
      have hread := ih hrest (c :: gap.flush read) .empty
        (fun d hd ↦ absurd hd List.not_mem_nil) false
        htext
      have hflush : (Gap.empty).flush (c :: gap.flush read) = c :: gap.flush read := rfl
      rw [hflush, List.reverse_cons, List.append_assoc, List.singleton_append, List.length_cons]
        at hread
      refine hread.imp_right fun h ↦ ?_
      rw [List.length_cons]
      omega

theorem reread_eq_some_iff (s : String) : reread s = some s ↔ KeepsLines s.toList := by
  have hstart := fun h : '\u0085' ∉ s.toList ↦
    rereadFrom_eq_some_iff s.toList h [] .empty (fun c hc ↦ absurd hc List.not_mem_nil) false
  have htext : reread s = some s ↔ rereadFrom [] .empty false s.toList = some s.toList := by
    rw [reread, Option.map_eq_some_iff]
    constructor
    · rintro ⟨text, htext, hs⟩
      rw [htext, ← hs, String.toList_ofList]
    · exact fun h ↦ ⟨s.toList, h, String.ofList_toList⟩
  rw [htext]
  constructor
  · intro h
    have hnext : '\u0085' ∉ s.toList :=
      nextLine_not_mem_rereadFrom s.toList [] .empty false s.toList h List.not_mem_nil
    obtain ⟨hfolded, _, hmarked⟩ := (hstart hnext).mp h
    exact ⟨hnext, hfolded, hmarked⟩
  · rintro ⟨hnext, hfolded, hmarked⟩
    exact (hstart hnext).mpr ⟨hfolded, rfl, hmarked⟩

end ApiManifest.Json
