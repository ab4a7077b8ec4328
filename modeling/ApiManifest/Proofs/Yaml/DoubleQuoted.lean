import ApiManifest.Proofs.Text.Hex
import ApiManifest.Proofs.Yaml.Places
import ApiManifest.Yaml.Scalar.Quoted
import Mathlib.Tactic.Ring

/-!
What a reader of a double-quoted scalar makes of one piece of the text: a blank or a break goes into
the gap, a backslash with a letter or with hexadecimal digits stands for a character
(`doubleQuoted_short`, `doubleQuoted_numbered`), the quote ends the scalar, and every other
character stands for itself.
-/

set_option autoImplicit false
set_option relaxedAutoImplicit false

namespace ApiManifest.Yaml

/-- A number that is a character's stands for that character. -/
theorem charOfNumber?_toNat (c : Char) : charOfNumber? c.toNat = some c := by
  have hvalid : c.toNat < 0xD800 ∨ 0xDFFF < c.toNat ∧ c.toNat < 0x110000 := c.valid
  rw [charOfNumber?, if_neg (by omega), Char.ofNat_toNat]

variable {read : List Char} {gap : Gap} {p : Spot} {c : Char} {cs : List Char} {g : Glyph}
  {rest : Glyphs}

/-! ### One step -/

theorem doubleQuoted_between : doubleQuoted read gap .between (g :: rest) =
    if isBlank g.char then doubleQuoted read (gap.addBlank g.char) .between rest
    else if isBreak g.char then doubleQuoted read (gap.addBreak g.char) .between rest
    else if documentMarkAhead (g :: rest) then .error .unclosed
    else if g.char == '"' then .ok ((gap.flush read).reverse, rest)
    else if g.char == '\\' then doubleQuoted (gap.flush read) .empty .backslash rest
    else doubleQuoted (g.char :: gap.flush read) .empty .between rest := rfl

theorem doubleQuoted_letter : doubleQuoted read gap .backslash (g :: rest) =
    if isBreak g.char then doubleQuoted read (.broken none []) .between rest
    else match shortEscape? g.char, escapeWidth? g.char with
      | some c, _ => doubleQuoted (c :: read) .empty .between rest
      | none, some width => doubleQuoted read .empty (.digits width 0) rest
      | none, none => .error .escape := rfl

theorem doubleQuoted_digit {missing value : Nat} :
    doubleQuoted read gap (.digits missing value) (g :: rest) =
      match Text.hexValue? g.char with
      | none => .error .escape
      | some d =>
        if missing ≤ 1 then
          match charOfNumber? (16 * value + d) with
          | some c => doubleQuoted (c :: read) .empty .between rest
          | none => .error .escape
        else doubleQuoted read gap (.digits (missing - 1) (16 * value + d)) rest := rfl

/-! ### Pieces of the text -/

theorem doubleQuoted_blank (hc : isBlank c = true) :
    doubleQuoted read gap .between (place p (c :: cs)) =
      doubleQuoted read (gap.addBlank c) .between (place (p.after c) cs) := by
  rw [place_cons, doubleQuoted_between]
  simp only [hc, if_true]

theorem doubleQuoted_break (hc : isBreak c = true) (hblank : isBlank c = false) :
    doubleQuoted read gap .between (place p (c :: cs)) =
      doubleQuoted read (gap.addBreak c) .between (place (p.after c) cs) := by
  rw [place_cons, doubleQuoted_between]
  simp only [hc, hblank, if_true, Bool.false_eq_true, if_false]

/-- A mark of a document ends the text before the quote does. -/
theorem doubleQuoted_mark (hbreak : isBreak c = false) (hblank : isBlank c = false)
    (hmark : documentMarkAhead (place p (c :: cs)) = true) :
    doubleQuoted read gap .between (place p (c :: cs)) = .error .unclosed := by
  rw [place_cons] at hmark ⊢
  rw [doubleQuoted_between]
  simp only [hbreak, hblank, hmark, if_true, Bool.false_eq_true, if_false]

theorem doubleQuoted_quote :
    doubleQuoted read gap .between (place p ('"' :: cs)) =
      .ok ((gap.flush read).reverse, place (p.after '"') cs) := by
  have hmark : documentMarkAhead (place p ('"' :: cs)) = false := by
    rw [documentMarkAhead_place, opensDocumentMark_cons_of_ne (by decide) (by decide),
      Bool.and_false]
  rw [place_cons] at hmark ⊢
  rw [doubleQuoted_between]
  simp [hmark, isBlank, isBreak]

/-- A character that means nothing to the reader stands for itself. -/
theorem doubleQuoted_char (hbreak : isBreak c = false) (hblank : isBlank c = false)
    (hmark : documentMarkAhead (place p (c :: cs)) = false) (hquote : c ≠ '"')
    (hescape : c ≠ '\\') :
    doubleQuoted read gap .between (place p (c :: cs)) =
      doubleQuoted (c :: gap.flush read) .empty .between (place (p.after c) cs) := by
  rw [place_cons] at hmark ⊢
  rw [doubleQuoted_between]
  simp [hbreak, hblank, hmark, hquote, hescape]

theorem doubleQuoted_backslash :
    doubleQuoted read gap .between (place p ('\\' :: cs)) =
      doubleQuoted (gap.flush read) .empty .backslash (place (p.after '\\') cs) := by
  have hmark : documentMarkAhead (place p ('\\' :: cs)) = false := by
    rw [documentMarkAhead_place, opensDocumentMark_cons_of_ne (by decide) (by decide),
      Bool.and_false]
  rw [place_cons] at hmark ⊢
  rw [doubleQuoted_between]
  simp [hmark, isBlank, isBreak]

/-- A backslash and a letter stand for a character. -/
theorem doubleQuoted_short {letter : Char} (hbreak : isBreak letter = false)
    (hletter : shortEscape? letter = some c) :
    doubleQuoted read gap .between (place p ('\\' :: letter :: cs)) =
      doubleQuoted (c :: gap.flush read) .empty .between
        (place (p.past ['\\', letter]) cs) := by
  rw [doubleQuoted_backslash, place_cons, doubleQuoted_letter]
  simp only [hbreak, hletter, Bool.false_eq_true, if_false]
  rfl

/-- All digits of a numbered escape but the last add to its value. -/
theorem doubleQuoted_digits {digit : Nat → Char}
    (hdigit : ∀ d < 16, Text.hexValue? (digit d) = some d)
    (width more n value : Nat) (hn : n < 16 ^ width) (cs : List Char) :
    doubleQuoted read gap (.digits (width + (more + 1)) value)
        (place p (Text.hexFixed digit width n ++ cs)) =
      doubleQuoted read gap (.digits (more + 1) (16 ^ width * value + n))
        (place (p.past (Text.hexFixed digit width n)) cs) := by
  induction width generalizing more n cs with
  | zero =>
    have hzero : n = 0 := by omega
    subst hzero
    simp [Text.hexFixed]
  | succ width ih =>
    have hrest : n / 16 < 16 ^ width := by
      rw [pow_succ] at hn
      omega
    have hvalue : 16 * (16 ^ width * value + n / 16) + n % 16 = 16 ^ (width + 1) * value + n := by
      rw [pow_succ]
      ring_nf
      omega
    rw [Text.hexFixed, List.append_assoc, List.singleton_append,
      show width + 1 + (more + 1) = width + (more + 1 + 1) by omega, ih (more + 1) (n / 16) hrest,
      place_cons, doubleQuoted_digit]
    simp only [hdigit (n % 16) (Nat.mod_lt _ (by decide)), hvalue, Spot.past_append,
      show ¬ more + 1 + 1 ≤ 1 by omega, if_false, Nat.add_sub_cancel]
    rfl

/-- A backslash, a letter and as many hexadecimal digits as the letter asks for stand for the
character with that number. -/
theorem doubleQuoted_numbered {digit : Nat → Char}
    (hdigit : ∀ d < 16, Text.hexValue? (digit d) = some d) {letter : Char} {width : Nat}
    (hletter : escapeWidth? letter = some (width + 1)) (hnone : shortEscape? letter = none)
    (hbreak : isBreak letter = false) (hc : c.toNat < 16 ^ (width + 1)) (cs : List Char) :
    doubleQuoted read gap .between
        (place p ('\\' :: letter :: (Text.hexFixed digit (width + 1) c.toNat ++ cs))) =
      doubleQuoted (c :: gap.flush read) .empty .between
        (place (p.past ('\\' :: letter :: Text.hexFixed digit (width + 1) c.toNat)) cs) := by
  have hrest : c.toNat / 16 < 16 ^ width := by
    rw [pow_succ] at hc
    omega
  rw [doubleQuoted_backslash, place_cons, doubleQuoted_letter]
  simp only [hbreak, hletter, hnone, Bool.false_eq_true, if_false]
  rw [Text.hexFixed, List.append_assoc, List.singleton_append,
    doubleQuoted_digits hdigit width 0 (c.toNat / 16) 0 hrest, place_cons, doubleQuoted_digit]
  simp only [hdigit (c.toNat % 16) (Nat.mod_lt _ (by decide)), Nat.mul_zero, Nat.zero_add, le_refl,
    if_true, Nat.div_add_mod, charOfNumber?_toNat, Spot.past_cons, Spot.past_append, Spot.past_nil]

end ApiManifest.Yaml
