import ApiManifest.Embed.Sink
import ApiManifest.Proofs.Embed.PackageName

/-!
Writing an embed source to a place with little room. Octets that are written in parts leave the
place as they do when they are written at once, also when a part does not fit (`write_append`), so
that the pieces of a source leave the first octets of its text, as many as there is room for, and
nothing is left out, repeated or moved where one piece ends or a character is cut. A place may also
take what it is given in several portions: however it does, the end is the same (`pours_iff`,
`poursAll_iff`).
-/

set_option autoImplicit false
set_option relaxedAutoImplicit false

namespace ApiManifest.Embed

namespace Sink

variable {s s' : Sink} {bytes : List UInt8} {parts : List (List UInt8)} {r : Except Sink Sink}

/-! ### What is taken -/

/-- The place after octets are written to it, of which it takes as many as it has room for. -/
def after (s : Sink) (bytes : List UInt8) : Sink :=
  ⟨s.room - bytes.length, s.taken ++ bytes.take s.room⟩

theorem write_eq (s : Sink) (bytes : List UInt8) :
    s.write bytes =
      if bytes.length ≤ s.room then .ok (s.after bytes) else .error (s.after bytes) := by
  unfold write after
  by_cases hfits : bytes.length ≤ s.room
  · rw [if_pos hfits, if_pos hfits, List.take_of_length_le hfits]
  · rw [if_neg hfits, if_neg hfits, Nat.sub_eq_zero_of_le (Nat.le_of_not_le hfits)]

theorem write_nil (s : Sink) : s.write [] = .ok s := by
  rw [write, List.length_nil, if_pos (Nat.zero_le _), List.append_nil]
  rfl

theorem after_append (s : Sink) (as bs : List UInt8) :
    s.after (as ++ bs) = (s.after as).after bs := by
  unfold after
  rw [List.length_append, List.take_append, List.append_assoc, Nat.sub_add_eq]

/-- A place without room stays as it is. -/
theorem after_of_full (hs : s.room = 0) (bytes : List UInt8) : s.after bytes = s := by
  rw [after, hs, Nat.zero_sub, List.take_zero, List.append_nil, ← hs]

/-- Octets in a row are written one part after the other. -/
theorem write_append (s : Sink) (as bs : List UInt8) :
    s.write (as ++ bs) = (s.write as).bind fun s ↦ s.write bs := by
  rw [write_eq, write_eq, after_append, List.length_append]
  by_cases hfits : as.length ≤ s.room
  · have hroom : (s.after as).room = s.room - as.length := rfl
    rw [if_pos hfits, Except.bind, write_eq, hroom]
    simp only [Nat.le_sub_iff_add_le' hfits]
  · have hfull : (s.after as).room = 0 := Nat.sub_eq_zero_of_le (Nat.le_of_not_le hfits)
    have hlonger : ¬ as.length + bs.length ≤ s.room := by omega
    rw [if_neg hfits, if_neg hlonger, after_of_full hfull]
    rfl

/-- Parts that are written one after the other leave what they leave when they are written at
once. -/
theorem foldlM_write (parts : List (List UInt8)) (s : Sink) :
    parts.foldlM Sink.write s = s.write parts.flatten := by
  induction parts generalizing s with
  | nil => exact (write_nil s).symm
  | cons part parts ih =>
    rw [List.foldlM_cons, List.flatten_cons, write_append]
    exact congrArg _ (funext ih)

-- A character is cut where the room ends.
example : (empty 2).write (Text.octets "aé") = .error ⟨0, [0x61, 0xC3]⟩ := rfl

/-! ### Portions -/

/-- How octets come to a place that takes them in portions: it takes some of what it is given, and
is given the rest, until nothing is left or it has no room. -/
inductive Pours : Sink → List UInt8 → Except Sink Sink → Prop
  | done (s : Sink) : Pours s [] (.ok s)
  | portion {s : Sink} {bytes : List UInt8} {r : Except Sink Sink} (n : Nat) (hpos : 0 < n)
      (hbytes : n ≤ bytes.length) (hroom : n ≤ s.room)
      (hrest : Pours (s.after (bytes.take n)) (bytes.drop n) r) : Pours s bytes r
  | full {s : Sink} {bytes : List UInt8} (hbytes : bytes ≠ []) (hroom : s.room = 0) :
      Pours s bytes (.error s)

/-- Parts of which each comes in portions, up to the first that does not fit. -/
inductive PoursAll : Sink → List (List UInt8) → Except Sink Sink → Prop
  | done (s : Sink) : PoursAll s [] (.ok s)
  | part {s s' : Sink} {bytes : List UInt8} {parts : List (List UInt8)} {r : Except Sink Sink}
      (hpart : Pours s bytes (.ok s')) (hrest : PoursAll s' parts r) : PoursAll s (bytes :: parts) r
  | stop {s s' : Sink} {bytes : List UInt8} {parts : List (List UInt8)}
      (hpart : Pours s bytes (.error s')) : PoursAll s (bytes :: parts) (.error s')

/-- A portion for which there is room is written. -/
theorem write_of_portion {n : Nat} (hbytes : n ≤ bytes.length) (hroom : n ≤ s.room) :
    s.write (bytes.take n) = .ok (s.after (bytes.take n)) := by
  rw [write_eq, if_pos]
  rw [List.length_take, Nat.min_eq_left hbytes]
  exact hroom

theorem write_of_full (hbytes : bytes ≠ []) (hroom : s.room = 0) : s.write bytes = .error s := by
  have hlonger : ¬ bytes.length ≤ s.room := by
    rw [hroom, Nat.le_zero, List.length_eq_zero_iff]
    exact hbytes
  rw [write_eq, if_neg hlonger, after_of_full hroom]

/-- Octets that come in portions leave what they leave when they come at once. -/
theorem pours_iff : Pours s bytes r ↔ s.write bytes = r := by
  constructor
  · intro h
    induction h with
    | done s => exact write_nil s
    | @portion s bytes r n _ hbytes hroom _ ih =>
      rw [← List.take_append_drop n bytes, write_append, write_of_portion hbytes hroom]
      exact ih
    | full hbytes hroom => exact write_of_full hbytes hroom
  · rintro rfl
    by_cases hbytes : bytes = []
    · rw [hbytes, write_nil]
      exact .done s
    · by_cases hroom : s.room = 0
      · rw [write_of_full hbytes hroom]
        exact .full hbytes hroom
      · -- All that there is room for may come in one portion.
        have hlength : bytes.length ≠ 0 := by rwa [Ne, List.length_eq_zero_iff]
        refine .portion (min bytes.length s.room) (by omega) (Nat.min_le_left _ _)
          (Nat.min_le_right _ _) ?_
        by_cases hfits : bytes.length ≤ s.room
        · rw [Nat.min_eq_left hfits, List.drop_length, List.take_length, write_eq, if_pos hfits]
          exact .done _
        · have hlt : s.room < bytes.length := Nat.lt_of_not_le hfits
          have hafter : s.after (bytes.take s.room) = s.after bytes := by
            unfold after
            rw [List.length_take, Nat.min_eq_left hlt.le, List.take_take, Nat.min_self,
              Nat.sub_self, Nat.sub_eq_zero_of_le hlt.le]
          rw [Nat.min_eq_right hlt.le, hafter, write_eq, if_neg hfits]
          refine .full ?_ (Nat.sub_eq_zero_of_le hlt.le)
          rw [Ne, List.drop_eq_nil_iff]
          exact hfits

theorem poursAll_iff : PoursAll s parts r ↔ s.write parts.flatten = r := by
  rw [← foldlM_write]
  constructor
  · intro h
    induction h with
    | done s => rfl
    | part hpart _ ih =>
      rw [List.foldlM_cons, pours_iff.mp hpart]
      exact ih
    | stop hpart =>
      rw [List.foldlM_cons, pours_iff.mp hpart]
      rfl
  · rintro rfl
    induction parts generalizing s with
    | nil => exact .done s
    | cons bytes parts ih =>
      rw [List.foldlM_cons]
      cases hpart : s.write bytes with
      | ok s' => exact .part (pours_iff.mpr hpart) ih
      | error s' => exact .stop (pours_iff.mpr hpart)

end Sink

/-! ### Sources -/

variable {o : Options} {m : Manifest} {documents : Documents}

/-- What becomes of a place, and the failure, from how a writing ends. -/
def outcome : Except Sink Sink → Sink × Option WriteFailure
  | .ok s => (s, none)
  | .error s => (s, some .full)

theorem outcome_write (s : Sink) (bytes : List UInt8) : outcome (s.write bytes) =
    (s.after bytes, if bytes.length ≤ s.room then none else some .full) := by
  rw [Sink.write_eq]
  split_ifs
  · rfl
  · rfl

theorem outcome_inj {r r' : Except Sink Sink} : outcome r = outcome r' ↔ r = r' := by
  cases r <;> cases r' <;> simp [outcome]

/-- A source is written like its text. -/
theorem write_of_accepted (hpackage : o.target.checkPackage o.package = .ok ()) (s : Sink) :
    write o m documents s =
      outcome (s.write (Text.octets (String.join (pieces o m documents)))) := by
  have hpieces : (pieces o m documents).foldlM (fun s piece ↦ s.write (Text.octets piece)) s =
      s.write (Text.octets (String.join (pieces o m documents))) := by
    rw [Text.octets_join, List.flatMap_def, ← Sink.foldlM_write, List.foldlM_map]
  rw [write, hpackage]
  simp only [hpieces]
  cases s.write (Text.octets (String.join (pieces o m documents))) with
  | ok s => rfl
  | error s => rfl

/-- A place with room for some number of octets is left with the first octets of the text of a
source, as many as this number, and a failure is told exactly when the text has more. This is so in
whatever portions the place takes the pieces. With a package name that is refused nothing is
written. -/
theorem write_takes_first (o : Options) (m : Manifest) (documents : Documents) (n : Nat) :
    (∀ cause, o.target.checkPackage o.package = .error cause →
      write o m documents (.empty n) = (.empty n, some (.package cause))) ∧
    (o.target.checkPackage o.package = .ok () → ∃ text, render o m documents = .ok text ∧
      (write o m documents (.empty n)).1.taken = (Text.octets text).take n ∧
      (write o m documents (.empty n)).2 =
        (if (Text.octets text).length ≤ n then none else some .full) ∧
      ∀ r, Sink.PoursAll (.empty n) ((pieces o m documents).map Text.octets) r ↔
        write o m documents (.empty n) = outcome r) := by
  refine ⟨fun cause hrefused ↦ write_of_refused hrefused m documents _, fun hpackage ↦ ?_⟩
  have hwrite : write o m documents (.empty n) = _ := write_of_accepted hpackage _
  refine ⟨_, render_eq_ok hpackage, ?taken, ?failure, fun r ↦ ?portions⟩
  case taken =>
    rw [hwrite, outcome_write]
    exact List.nil_append _
  case failure =>
    rw [hwrite, outcome_write]
    rfl
  case portions =>
    rw [Sink.poursAll_iff, hwrite, outcome_inj, Text.octets_join, List.flatMap_def]

/-- A place is full after the first of the two octets of a character, and a name that starts with a
digit is refused. -/
theorem write_takes_first_accented :
    (Target.rust.checkPackage "" = .ok () ∧
      ∃ text, render ⟨.rust, ""⟩ (.ofModules []) [("a.openapi.yaml", .str "é")] = .ok text ∧
        (write ⟨.rust, ""⟩ (.ofModules []) [("a.openapi.yaml", .str "é")] (.empty 1381)).1.taken =
          (Text.octets text).take 1381) ∧
    Target.go.checkPackage "9x" = .error ⟨"9x"⟩ ∧
      write ⟨.go, "9x"⟩ (.ofModules []) [] (.empty 5) = (.empty 5, some (.package ⟨"9x"⟩)) := by
  have haccepted : Target.rust.checkPackage "" = .ok () := rfl
  have hrefused : Target.go.checkPackage "9x" = .error ⟨"9x"⟩ := by decide
  obtain ⟨text, htext, htaken, -⟩ := (write_takes_first ⟨.rust, ""⟩ (.ofModules [])
    [("a.openapi.yaml", .str "é")] 1381).2 haccepted
  exact ⟨⟨haccepted, text, htext, htaken⟩, hrefused,
    (write_takes_first ⟨.go, "9x"⟩ (.ofModules []) [] 5).1 _ hrefused⟩

end ApiManifest.Embed
