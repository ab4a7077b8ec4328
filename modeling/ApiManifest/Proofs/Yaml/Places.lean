import ApiManifest.Yaml.Source
import Mathlib.Data.List.Basic
import Mathlib.Data.Nat.Basic
import Mathlib.Tactic.Common

/-!
Texts as placed characters. `place` gives a text its places from any spot on, and is what the glyphs
of a text are (`placeFrom_eq`). What a reader asks of the glyphs ahead is then a question about
characters, with the column for the marks of a document (`documentMarkAhead_place`).
-/

set_option autoImplicit false
set_option relaxedAutoImplicit false

namespace ApiManifest.Yaml

/-- A place in a text. -/
structure Spot where
  line : Nat
  column : Nat
  deriving DecidableEq

namespace Spot

/-- The start of a text. -/
def start : Spot := ⟨0, 0⟩

/-- The place after a character. -/
def after (p : Spot) (c : Char) : Spot :=
  if isBreak c then ⟨p.line + 1, 0⟩ else ⟨p.line, p.column + 1⟩

/-- The place after a text. -/
def past (p : Spot) (cs : List Char) : Spot := cs.foldl after p

@[simp] theorem past_nil (p : Spot) : p.past [] = p := rfl

@[simp] theorem past_cons (p : Spot) (c : Char) (cs : List Char) :
    p.past (c :: cs) = (p.after c).past cs := rfl

theorem past_append (p : Spot) (cs ds : List Char) : p.past (cs ++ ds) = (p.past cs).past ds :=
  List.foldl_append

theorem after_of_not_isBreak (p : Spot) {c : Char} (hc : isBreak c = false) :
    p.after c = ⟨p.line, p.column + 1⟩ := by
  simp [after, hc]

theorem after_of_isBreak (p : Spot) {c : Char} (hc : isBreak c = true) :
    p.after c = ⟨p.line + 1, 0⟩ := by
  simp [after, hc]

/-- A text without breaks moves along its line. -/
theorem past_of_line (p : Spot) {cs : List Char} (hcs : ∀ c ∈ cs, isBreak c = false) :
    p.past cs = ⟨p.line, p.column + cs.length⟩ := by
  induction cs generalizing p with
  | nil => rfl
  | cons c cs ih =>
    rw [past_cons, after_of_not_isBreak p (hcs c List.mem_cons_self),
      ih _ fun d hd ↦ hcs d (List.mem_cons_of_mem c hd), List.length_cons]
    simp only [mk.injEq, true_and]
    omega

theorem line_le_past (p : Spot) (cs : List Char) : p.line ≤ (p.past cs).line := by
  induction cs generalizing p with
  | nil => exact le_rfl
  | cons c cs ih =>
    refine le_trans ?_ (ih (p.after c))
    unfold after
    split_ifs
    · exact Nat.le_succ _
    · exact le_rfl

/-- A text with a break moves to a later line. -/
theorem line_lt_past (p : Spot) {cs : List Char} {c : Char} (hc : c ∈ cs)
    (hbreak : isBreak c = true) : p.line < (p.past cs).line := by
  induction cs generalizing p with
  | nil => exact absurd hc List.not_mem_nil
  | cons d cs ih =>
    rcases List.mem_cons.mp hc with rfl | hmem
    · rw [past_cons, after_of_isBreak p hbreak]
      exact lt_of_lt_of_le (Nat.lt_succ_self _) (line_le_past ⟨p.line + 1, 0⟩ cs)
    · refine lt_of_le_of_lt ?_ (ih (p.after d) hmem)
      exact line_le_past p [d]

end Spot

/-- The glyphs of a text that stands at a spot. -/
def place (p : Spot) : List Char → Glyphs
  | [] => []
  | c :: cs => ⟨c, p.line, p.column⟩ :: place (p.after c) cs

@[simp] theorem place_nil (p : Spot) : place p [] = [] := rfl

@[simp] theorem place_cons (p : Spot) (c : Char) (cs : List Char) :
    place p (c :: cs) = ⟨c, p.line, p.column⟩ :: place (p.after c) cs := rfl

@[simp] theorem length_place (p : Spot) (cs : List Char) : (place p cs).length = cs.length := by
  induction cs generalizing p with
  | nil => rfl
  | cons c cs ih => rw [place_cons, List.length_cons, ih, List.length_cons]

theorem placeFrom_eq (line column : Nat) (read : Glyphs) (cs : List Char) :
    placeFrom line column read cs = read.reverse ++ place ⟨line, column⟩ cs := by
  induction cs generalizing line column read with
  | nil => rw [placeFrom, place_nil, List.append_nil]
  | cons c cs ih =>
    rw [placeFrom, place_cons, Spot.after]
    split_ifs <;> rw [ih, List.reverse_cons, List.append_assoc, List.singleton_append]

/-- What stands for a character once breaks are made alike, in a text without carriage returns. -/
def lineFeed (c : Char) : Char := if c = '\u0085' then '\n' else c

theorem lineFeed_of_ne {c : Char} (hc : c ≠ '\u0085') : lineFeed c = c := by
  rw [lineFeed, if_neg hc]

theorem map_lineFeed {cs : List Char} (hcs : '\u0085' ∉ cs) : cs.map lineFeed = cs := by
  have hsame : ∀ c ∈ cs, lineFeed c = c := fun c hc ↦ lineFeed_of_ne fun h ↦ hcs (h ▸ hc)
  rw [List.map_congr_left hsame, List.map_id']

theorem normaliseBreaks_eq (read cs : List Char) (hcs : '\r' ∉ cs) :
    normaliseBreaks read cs = read.reverse ++ cs.map lineFeed := by
  induction cs generalizing read with
  | nil => rw [normaliseBreaks, List.map_nil, List.append_nil]
  | cons c cs ih =>
    have hc : c ≠ '\r' := fun h ↦ hcs (h ▸ List.mem_cons_self)
    have hrest : '\r' ∉ cs := fun h ↦ hcs (List.mem_cons_of_mem c h)
    rw [normaliseBreaks.eq_3 _ _ _ fun _ h ↦ absurd h hc, ih _ hrest, List.map_cons,
      List.reverse_cons, List.append_assoc, List.singleton_append]
    simp [lineFeed, hc]

/-- The glyphs of a text without carriage returns. -/
theorem glyphs_eq {cs : List Char} (hcs : '\r' ∉ cs) :
    glyphs cs = if cs.all isAllowed then .ok (place .start (cs.map lineFeed))
      else .error .character := by
  rw [glyphs, normaliseBreaks_eq [] cs hcs, placeFrom_eq]
  rfl

/-- Whether a gap stands at the head of a text. -/
def opensGap : List Char → Bool
  | [] => true
  | c :: _ => isBlank c || isBreak c

@[simp] theorem gapAhead_place (p : Spot) (cs : List Char) :
    gapAhead (place p cs) = opensGap cs := by
  cases cs <;> rfl

/-- Whether a number of the same character and a gap after them stand at the head of a text. -/
def opensRun (c : Char) : Nat → List Char → Bool
  | 0, cs => opensGap cs
  | _ + 1, [] => false
  | n + 1, x :: cs => x == c && opensRun c n cs

theorem markAhead_place (c : Char) (p : Spot) (cs : List Char) :
    markAhead c (place p cs) = (p.column == 0 && opensRun c 3 cs) := by
  rcases cs with _ | ⟨x, _ | ⟨y, _ | ⟨z, rest⟩⟩⟩
  · simp [markAhead, opensRun]
  · simp [markAhead, opensRun]
  · simp [markAhead, opensRun]
  · simp [markAhead, opensRun, Bool.and_assoc]

/-- Whether the mark of a document could stand at the head of a text. -/
def opensDocumentMark (cs : List Char) : Bool := opensRun '-' 3 cs || opensRun '.' 3 cs

theorem documentMarkAhead_place (p : Spot) (cs : List Char) :
    documentMarkAhead (place p cs) = (p.column == 0 && opensDocumentMark cs) := by
  rw [documentMarkAhead, markAhead_place, markAhead_place, opensDocumentMark,
    Bool.and_or_distrib_left]

/-- No mark of a document stands off the margin. -/
theorem documentMarkAhead_off_margin {p : Spot} (hp : p.column ≠ 0) (cs : List Char) :
    documentMarkAhead (place p cs) = false := by
  rw [documentMarkAhead_place, beq_eq_false_iff_ne.mpr hp, Bool.false_and]

theorem opensRun_cons_of_ne {c d : Char} (hd : d ≠ c) (n : Nat) (cs : List Char) :
    opensRun c (n + 1) (d :: cs) = false := by
  rw [opensRun, beq_eq_false_iff_ne.mpr hd, Bool.false_and]

/-- A mark of a document is made of hyphens or of dots. -/
theorem opensDocumentMark_cons_of_ne {d : Char} (hhyphen : d ≠ '-') (hdot : d ≠ '.')
    (cs : List Char) : opensDocumentMark (d :: cs) = false := by
  rw [opensDocumentMark, opensRun_cons_of_ne hhyphen, opensRun_cons_of_ne hdot, Bool.or_false]

end ApiManifest.Yaml
