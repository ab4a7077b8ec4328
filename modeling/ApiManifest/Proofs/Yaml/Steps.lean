import ApiManifest.Proofs.Yaml.Places
import ApiManifest.Yaml.Scanner

/-!
Runs of the scanner. `Steps` leads from one scanner to a later one by whole tokens, each of which
takes a character, so that the bound of a scan is never met; `Fails` says that a token on the way is
refused. A scan is a run to the end of the text (`scan_of_steps`) or to a refusal
(`scan_of_fails`).
-/

set_option autoImplicit false
set_option relaxedAutoImplicit false

namespace ApiManifest.Yaml.Scanner

/-- From one scanner to a later one by reading tokens. -/
def Steps (s s' : Scanner) : Prop :=
  ∃ count, count + s'.rest.length ≤ s.rest.length ∧
    ∀ bound, run (count + bound) s = run bound s'

/-- A token that is ahead of the scanner is refused. -/
def Fails (s : Scanner) : Prop :=
  ∃ count cause, count ≤ s.rest.length ∧ ∀ bound, run (count + 1 + bound) s = .error cause

theorem Steps.refl (s : Scanner) : Steps s s :=
  ⟨0, Nat.le_of_eq (Nat.zero_add _), fun bound ↦ by rw [Nat.zero_add]⟩

theorem Steps.trans {s s' s'' : Scanner} (hfirst : Steps s s') (hlast : Steps s' s'') :
    Steps s s'' := by
  obtain ⟨n, hn, hrun⟩ := hfirst
  obtain ⟨m, hm, hrun'⟩ := hlast
  refine ⟨n + m, by omega, fun bound ↦ ?_⟩
  rw [Nat.add_assoc, hrun, hrun']

theorem Steps.fails {s s' : Scanner} (hsteps : Steps s s') (hfails : Fails s') : Fails s := by
  obtain ⟨n, hn, hrun⟩ := hsteps
  obtain ⟨m, cause, hm, hrun'⟩ := hfails
  refine ⟨n + m, cause, by omega, fun bound ↦ ?_⟩
  rw [show n + m + 1 + bound = n + (m + 1 + bound) by omega, hrun, hrun']

section

variable {s t : Scanner} {g : Glyph} {rest : Glyphs} {keyAllowed : Bool}

/-- A gap only shortens the text. -/
theorem length_dropGap_le (flow keyAllowed comment : Bool) (gs : Glyphs) :
    (dropGap flow keyAllowed comment gs).1.length ≤ gs.length := by
  fun_induction dropGap flow keyAllowed comment gs with
  | case1 => exact le_rfl
  | case6 => exact le_rfl
  | case2 _ _ g rest _ ih => exact le_trans ih (Nat.le_succ _)
  | case3 _ g rest _ ih => exact le_trans ih (Nat.le_succ _)
  | case4 _ _ g rest _ _ _ ih => exact le_trans ih (Nat.le_succ _)
  | case5 _ _ g rest _ _ _ _ ih => exact le_trans ih (Nat.le_succ _)

/-- One round of a run passes a gap, lets marks expire, closes blocks and reads a token. -/
theorem Steps.token {s' : Scanner}
    (hgap : dropGap s.inFlow s.keyAllowed false s.rest = (g :: rest, keyAllowed))
    (hmarks : { s with rest := g :: rest, keyAllowed }.expireMarks g = .ok t)
    (htoken : (t.unroll g.column).token g rest = .ok s') (hrest : s'.rest.length ≤ rest.length) :
    Steps s s' := by
  have hlength := length_dropGap_le s.inFlow s.keyAllowed false s.rest
  rw [hgap, List.length_cons] at hlength
  refine ⟨1, by omega, fun bound ↦ ?_⟩
  rw [Nat.add_comm, run, hgap]
  simp only [hmarks, htoken]

theorem Fails.token {cause : Error}
    (hgap : dropGap s.inFlow s.keyAllowed false s.rest = (g :: rest, keyAllowed))
    (hmarks : { s with rest := g :: rest, keyAllowed }.expireMarks g = .ok t)
    (htoken : (t.unroll g.column).token g rest = .error cause) : Fails s := by
  refine ⟨0, cause, Nat.zero_le _, fun bound ↦ ?_⟩
  rw [Nat.zero_add, Nat.add_comm, run, hgap]
  simp only [hmarks, htoken]

end

/-- Holds of the characters with which a token starts wherever they stand. -/
def StartsToken (c : Char) : Prop :=
  isBreak c = false ∧ isBlank c = false ∧ c ≠ '#' ∧ c ≠ '\uFEFF'

theorem dropGap_of_startsToken {c : Char} (hc : StartsToken c) (flow keyAllowed : Bool) (p : Spot)
    (cs : List Char) :
    dropGap flow keyAllowed false (place p (c :: cs)) = (place p (c :: cs), keyAllowed) := by
  obtain ⟨hbreak, hblank, hcomment, hmark⟩ := hc
  rw [isBlank, Bool.or_eq_false_iff] at hblank
  rw [place_cons, dropGap]
  simp [hbreak, hblank.1, hblank.2, hcomment, hmark]

theorem markAhead_of_ne {c : Char} {g : Glyph} (hc : g.char ≠ c) (gs : Glyphs) :
    markAhead c (g :: gs) = false := by
  rcases gs with _ | ⟨x, _ | ⟨y, rest⟩⟩ <;> simp [markAhead, hc]

/-- A scan whose run reaches the end of the text gives the tokens read. -/
theorem scan_of_steps {gs : Glyphs} {s : Scanner} {tokens : List Token}
    (hsteps : Steps (start gs) s)
    (hgap : (dropGap s.inFlow s.keyAllowed false s.rest).1 = [])
    (hfinish : { s with
        rest := []
        keyAllowed := (dropGap s.inFlow s.keyAllowed false s.rest).2 }.finish
      = .ok tokens) : scan gs = .ok tokens := by
  obtain ⟨n, hn, hrun⟩ := hsteps
  have hbound : gs.length + 1 = n + (gs.length - n + 1) := by
    have : (start gs).rest.length = gs.length := rfl
    omega
  rw [scan, hbound, hrun, run]
  simp only [hgap, hfinish]

theorem scan_of_fails {gs : Glyphs} (hfails : Fails (start gs)) :
    ∃ cause, scan gs = .error cause := by
  obtain ⟨n, cause, hn, hrun⟩ := hfails
  have hbound : gs.length + 1 = n + 1 + (gs.length - n) := by
    have : (start gs).rest.length = gs.length := rfl
    omega
  exact ⟨cause, by rw [scan, hbound, hrun]⟩

end ApiManifest.Yaml.Scanner
