import ApiManifest.Proofs.Embed.Source
import ApiManifest.Text.Hex
import Mathlib.Data.Nat.Digits.Defs
import Mathlib.Tactic.IntervalCases
import Mathlib.Tactic.Ring

/-!
A Rust embed source under a reader of Rust. The reader knows the rules of string literals and
nothing of how they are written: it goes through a literal one character at a time, with its `Place`
in it, and refuses a bare carriage return and the marks that change the direction of text. A
literal is read as its text, whatever follows (`literal?_rustLiteral`), because one written
character is read as that character and leaves the reader where it was (`read_rustChar`). The reader
of the table takes marks and literals one after the other, and gets the payload back
(`source?_render`).
-/

set_option autoImplicit false
set_option relaxedAutoImplicit false

namespace ApiManifest.Embed.Rust

/-! ### The reader of a literal -/

/-- Where a reader stands in a literal: in its text, after a backslash, before the brace of an
escape by number, or behind some digits of it. -/
inductive Place where
  | text
  | backslash
  | brace
  | digits (count value : Nat)

/-- The characters that a literal must not hold. -/
def refused : List Char :=
  ['\r', '\u202a', '\u202b', '\u202c', '\u202d', '\u202e', '\u2066', '\u2067', '\u2068', '\u2069']

/-- The character for which a backslash and the given one stand. -/
def escape? : Char → Option Char
  | '"' => some '"'
  | '\\' => some '\\'
  | 'n' => some '\n'
  | 'r' => some '\r'
  | 't' => some '\t'
  | '0' => some '\x00'
  | _ => none

/-- Puts a character before what is read. -/
def before (c : Char) : Option (List Char × List Char) → Option (List Char × List Char) :=
  Option.map fun r ↦ (c :: r.1, r.2)

/-- Reads a literal from a place in it up to the closing quote: its text and what follows. -/
def read : Place → List Char → Option (List Char × List Char)
  | _, [] => none
  | .text, c :: rest =>
    if c = '"' then some ([], rest)
    else if c = '\\' then read .backslash rest
    else if c ∈ refused then none
    else before c (read .text rest)
  | .backslash, c :: rest =>
    if c = 'u' then read .brace rest
    else match escape? c with
      | some e => before e (read .text rest)
      | none => none
  | .brace, c :: rest => if c = '\x7b' then read (.digits 0 0) rest else none
  | .digits count value, c :: rest =>
    if c = '\x7d' then
      if 0 < count ∧ value.isValidChar then before (Char.ofNat value) (read .text rest) else none
    else if count < 6 then
      match Text.hexValue? c with
      | some digit => read (.digits (count + 1) (16 * value + digit)) rest
      | none => none
    else none

/-- Leaves blanks out. -/
def dropBlanks (s : List Char) : List Char := s.dropWhile fun c ↦ c == ' ' || c == '\n' || c == '\t'

/-- Takes a mark off, if the text starts with it. -/
def mark? : List Char → List Char → Option (List Char)
  | [], s => some s
  | _ :: _, [] => none
  | m :: ms, c :: s => if m = c then mark? ms s else none

/-- Takes a mark off that blanks may stand before. -/
def token? (mark : String) (s : List Char) : Option (List Char) := mark? mark.toList (dropBlanks s)

/-- Reads a literal that blanks may stand before. -/
def literal? (s : List Char) : Option (String × List Char) :=
  (token? "\"" s).bind fun s ↦ (read .text s).map fun r ↦ (String.ofList r.1, r.2)

/-! ### The reader of a table -/

/-- Reads an entry: a pair of two literals, the second one taken as octets, and a comma. -/
def file? (s : List Char) : Option (File × List Char) := do
  let s ← token? "(" s
  let (name, s) ← literal? s
  let s ← token? "," s
  let (data, s) ← literal? s
  let s ← token? ".as_bytes()" s
  let s ← token? ")" s
  let s ← token? "," s
  return (⟨name, data⟩, s)

theorem length_of_mark? {mark s rest : List Char} (h : mark? mark s = some rest) :
    rest.length + mark.length = s.length := by
  induction mark generalizing s with
  | nil =>
    rw [mark?] at h
    rw [Option.some.inj h, List.length_nil, Nat.add_zero]
  | cons m ms ih =>
    cases s with
    | nil => exact absurd h (by simp [mark?])
    | cons c s =>
      rw [mark?] at h
      split_ifs at h
      rw [List.length_cons, List.length_cons, ← Nat.add_assoc, ih h]

theorem length_of_token? {mark : String} {s rest : List Char} (h : token? mark s = some rest) :
    rest.length + mark.length ≤ s.length := by
  have hdrop : (dropBlanks s).length ≤ s.length := (List.dropWhile_suffix _).length_le
  rw [← String.length_toList, length_of_mark? h]
  exact hdrop

theorem length_of_read {p : Place} {s : List Char} {r : List Char × List Char}
    (h : read p s = some r) : r.2.length < s.length := by
  induction s generalizing p r with
  | nil => cases p <;> exact absurd h (by simp [read])
  | cons c s ih =>
    have hmore {q : Place} {r : List Char × List Char} (hq : read q s = some r) :
        r.2.length < (c :: s).length := (ih hq).trans (Nat.lt_succ_self _)
    have hbefore {e : Char} {q : Place} {r : List Char × List Char}
        (hq : before e (read q s) = some r) : r.2.length < (c :: s).length := by
      obtain ⟨r', hr', rfl⟩ := Option.map_eq_some_iff.mp hq
      exact (ih hr').trans (Nat.lt_succ_self _)
    cases p with
    | text =>
      rw [read] at h
      split_ifs at h
      · rw [← Option.some.inj h]
        exact Nat.lt_succ_self _
      · exact hmore h
      · exact hbefore h
    | backslash =>
      rw [read] at h
      split_ifs at h
      · exact hmore h
      · split at h
        · exact hbefore h
        · exact absurd h (by simp)
    | brace =>
      rw [read] at h
      split_ifs at h
      exact hmore h
    | digits count value =>
      rw [read] at h
      split_ifs at h
      · exact hbefore h
      · split at h
        · exact hmore h
        · exact absurd h (by simp)

theorem length_of_literal? {s : List Char} {r : String × List Char} (h : literal? s = some r) :
    r.2.length < s.length := by
  obtain ⟨rest, htoken, h⟩ := Option.bind_eq_some_iff.mp h
  obtain ⟨r', hread, rfl⟩ := Option.map_eq_some_iff.mp h
  have hrest := length_of_token? htoken
  exact (length_of_read hread).trans_le (by omega)

/-- What follows an entry is shorter than what was there. -/
theorem length_of_file? {s : List Char} {r : File × List Char} (h : file? s = some r) :
    r.2.length < s.length := by
  simp only [file?, bind, pure, Option.bind_eq_some_iff] at h
  obtain ⟨s₁, h₁, ⟨name, s₂⟩, h₂, s₃, h₃, ⟨data, s₄⟩, h₄, s₅, h₅, s₆, h₆, s₇, h₇, h⟩ := h
  have hopen := length_of_token? h₁
  have hname := length_of_literal? h₂
  have hcomma := length_of_token? h₃
  have hdata := length_of_literal? h₄
  have hbytes := length_of_token? h₅
  have hclose := length_of_token? h₆
  have hend := length_of_token? h₇
  rw [← Option.some.inj h]
  dsimp only at *
  omega

/-- Reads the entries of a table up to the first text that is none, and gives that text. -/
def entries (s : List Char) : List File × List Char :=
  match _h : file? s with
  | none => ([], s)
  | some (f, rest) => ((entries rest).map (f :: ·) id)
termination_by s.length
decreasing_by exact length_of_file? _h

/-- Reads a source: the fixed text before the table, its entries, the closing of the table, and
nothing but blanks after it. -/
def source? (s : String) : Option (List File) := do
  let s ← mark? rustScaffolding.toList s.toList
  let (files, s) := entries s
  let s ← token? "];" s
  if (dropBlanks s).isEmpty then some files else none

/-! ### What is written is read -/

variable {c : Char} {s rest : List Char}

theorem hexValue?_digitChar {d : Nat} (hd : d < 16) :
    Text.hexValue? (Nat.digitChar d) = some d ∧ Nat.digitChar d ≠ '\x7d' := by
  interval_cases d <;> exact ⟨rfl, by decide⟩

/-- The digits of a number add to the value that a reader has. -/
theorem read_hexNat (n count value : Nat)
    (hcount : count + (Text.hexNat n).length ≤ 6) (rest : List Char) :
    read (.digits count value) (Text.hexNat n ++ rest) =
      read (.digits (count + (Text.hexNat n).length)
        (16 ^ (Text.hexNat n).length * value + n)) rest := by
  have hdigit {count value d : Nat} (hd : d < 16) (hcount : count < 6) (rest : List Char) :
      read (.digits count value) (Nat.digitChar d :: rest) =
        read (.digits (count + 1) (16 * value + d)) rest := by
    obtain ⟨hvalue, hbrace⟩ := hexValue?_digitChar hd
    rw [read, if_neg hbrace, if_pos hcount, hvalue]
  unfold Text.hexNat at hcount ⊢
  induction n using Nat.strongRecOn generalizing rest with
  | ind n ih =>
    rcases Nat.lt_or_ge n 16 with hlt | hge
    · rw [Nat.toDigits_of_lt_base hlt, List.length_singleton] at hcount ⊢
      rw [List.singleton_append, hdigit hlt hcount, pow_one]
    · rw [Nat.toDigits_of_base_le (by decide) hge, List.length_append, List.length_singleton]
        at hcount ⊢
      have hvalue (k : Nat) :
          16 * (16 ^ k * value + n / 16) + n % 16 = 16 ^ (k + 1) * value + n := by
        rw [pow_succ]
        ring_nf
        omega
      rw [List.append_assoc, ih (n / 16) (by omega) (by omega), List.singleton_append,
        hdigit (Nat.mod_lt _ (by decide)) (by omega), hvalue, Nat.add_assoc]

/-- An escape by number stands for the character with that number. -/
theorem read_numbered (c : Char) (rest : List Char) :
    read .text ('\\' :: 'u' :: '\x7b' :: (Text.hexNat c.toNat ++ '\x7d' :: rest)) =
      before c (read .text rest) := by
  have hsize : (Text.hexNat c.toNat).length ≤ 6 := by
    have hvalid : c.toNat < 0xD800 ∨ 0xDFFF < c.toNat ∧ c.toNat < 0x110000 := c.valid
    exact Nat.toDigits_length 16 c.toNat 6 (by decide) (by omega)
  have hsome : 0 < (Text.hexNat c.toNat).length := Nat.length_toDigits_pos
  have hopen (rest : List Char) : read .text ('\\' :: 'u' :: '\x7b' :: rest) =
      read (.digits 0 0) rest := by
    rw [read, if_neg (by decide), if_pos rfl, read, if_pos rfl, read, if_pos rfl]
  rw [hopen, read_hexNat _ _ _ (by omega), Nat.mul_zero, Nat.zero_add, Nat.zero_add, read,
    if_pos rfl, if_pos ⟨hsome, c.valid⟩, Char.ofNat_toNat]

theorem read_escape {letter : Char} (hletter : escape? letter = some c) (hother : letter ≠ 'u') :
    read .text ('\\' :: letter :: rest) = before c (read .text rest) := by
  rw [read, if_neg (by decide), if_pos rfl, read, if_neg hother, hletter]

/-- A character that is shown as it is stands for itself. -/
theorem read_shown (hquote : c ≠ '"') (hbackslash : c ≠ '\\') (hrefused : c ∉ refused) :
    read .text (c :: rest) = before c (read .text rest) := by
  rw [read, if_neg hquote, if_neg hbackslash, if_neg hrefused]

/-- The characters that a literal must not hold are written as escapes. -/
theorem not_mem_refused (hcontrol : isControl c = false) (hmark : isDirectionMark c = false) :
    c ∉ refused := by
  intro hc
  have hall : refused.all (fun c ↦ isControl c || isDirectionMark c) = true := by decide
  have htrue := List.all_eq_true.mp hall c hc
  rw [hcontrol, hmark] at htrue
  exact Bool.noConfusion htrue

/-- One written character is read as that character, and the reader is where it was. -/
theorem read_rustChar (c : Char) (rest : List Char) :
    read .text (rustChar c ++ rest) = before c (read .text rest) := by
  unfold rustChar
  split
  · exact read_escape rfl (by decide)
  · exact read_escape rfl (by decide)
  · exact read_escape rfl (by decide)
  · exact read_escape rfl (by decide)
  · exact read_escape rfl (by decide)
  · exact read_escape rfl (by decide)
  · rename_i hquote hbackslash _ _ _ _
    split_ifs with hescaped
    · rw [List.append_assoc, List.append_assoc]
      exact read_numbered c rest
    · rw [Bool.or_eq_true, not_or, Bool.not_eq_true, Bool.not_eq_true] at hescaped
      exact read_shown hquote hbackslash (not_mem_refused hescaped.1 hescaped.2)

/-- The text of a literal is read up to its own quote. -/
theorem read_rustChars (cs rest : List Char) :
    read .text (cs.flatMap rustChar ++ '"' :: rest) = some (cs, rest) := by
  induction cs with
  | nil => rw [List.flatMap_nil, List.nil_append, read, if_pos rfl]
  | cons c cs ih =>
    rw [List.flatMap_cons, List.append_assoc, read_rustChar, ih]
    rfl

theorem mark?_append (mark rest : List Char) : mark? mark (mark ++ rest) = some rest := by
  induction mark with
  | nil => rfl
  | cons m ms ih => rw [List.cons_append, mark?, if_pos rfl, ih]

/-- A literal is read as its text, whatever follows. -/
theorem literal?_rustLiteral (s : String) (rest : List Char) :
    literal? (rustLiteral s ++ rest) = some (s, rest) := by
  have hquote : token? "\"" (rustLiteral s ++ rest) =
      some (s.toList.flatMap rustChar ++ '"' :: rest) := by
    rw [rustLiteral, List.cons_append, List.append_assoc]
    rfl
  rw [literal?, hquote, Option.bind_some, read_rustChars, Option.map_some, String.ofList_toList]

theorem toList_line (f : File) : (Target.rust.line f).toList =
    "    (".toList ++ rustLiteral f.name ++ ", ".toList ++ rustLiteral f.data ++
      ".as_bytes()),\n".toList :=
  String.toList_ofList

/-- The line of a file is read as the entry with its name and its data. -/
theorem file?_line (f : File) (rest : List Char) :
    file? ((Target.rust.line f).toList ++ rest) = some (f, '\n' :: rest) := by
  have hopen (s : List Char) : token? "(" ("    (".toList ++ s) = some s := rfl
  have hcomma (s : List Char) : token? "," (", ".toList ++ s) = some (' ' :: s) := rfl
  have hblank (s : List Char) : literal? (' ' :: s) = literal? s := rfl
  have hbytes (s : List Char) : token? ".as_bytes()" (".as_bytes()),\n".toList ++ s) =
      some (')' :: ',' :: '\n' :: s) := rfl
  have hclose (s : List Char) : token? ")" (')' :: s) = some s := rfl
  have hend (s : List Char) : token? "," (',' :: s) = some s := rfl
  rw [toList_line, file?]
  simp only [List.append_assoc, Option.bind_eq_bind, Option.bind_some, hopen, literal?_rustLiteral,
    hcomma, hblank, hbytes, hclose, hend]
  rfl

/-- Blanks before an entry say nothing. -/
theorem file?_of_dropBlanks {t : List Char} (h : dropBlanks s = dropBlanks t) :
    file? s = file? t := by
  rw [file?, file?, token?, token?, h]

/-- The lines of a table are read as its files, up to the text that closes it. -/
theorem entries_lines (files : List File) {s : List Char}
    (hs : dropBlanks s = dropBlanks
      (files.flatMap (fun f ↦ (Target.rust.line f).toList) ++ Target.rust.footer.toList)) :
    ∃ rest, entries s = (files, rest) ∧ dropBlanks rest = Target.rust.footer.toList := by
  induction files generalizing s with
  | nil =>
    have hnone : file? s = none := (file?_of_dropBlanks hs).trans rfl
    refine ⟨s, ?_, hs⟩
    rw [entries, hnone]
  | cons f files ih =>
    rw [List.flatMap_cons, List.append_assoc] at hs
    have hentry := (file?_of_dropBlanks hs).trans (file?_line f _)
    obtain ⟨rest, hentries, hrest⟩ := ih (s := '\n' ::
      (files.flatMap (fun f ↦ (Target.rust.line f).toList) ++ Target.rust.footer.toList)) rfl
    refine ⟨rest, ?_, hrest⟩
    rw [entries]
    split
    · rename_i hnone
      rw [hnone] at hentry
      exact absurd hentry (by simp)
    · rename_i g rest' hsome
      rw [hsome] at hentry
      obtain ⟨rfl, rfl⟩ := Prod.mk.inj (Option.some.inj hentry)
      rw [hentries]
      rfl

/-- The source of a payload is read as the payload. -/
theorem source?_lines (files : List File) :
    source? (rustScaffolding ++ String.join (files.map Target.rust.line) ++ Target.rust.footer) =
      some files := by
  obtain ⟨rest, hentries, hrest⟩ := entries_lines files rfl
  have hchars : (String.join (files.map Target.rust.line)).toList =
      files.flatMap fun f ↦ (Target.rust.line f).toList := by
    rw [String.toList_join, List.flatMap_map]
  have hclose : token? "];" rest = some ['\n'] := by
    rw [token?, hrest]
    rfl
  rw [source?, String.toList_append, String.toList_append, hchars, List.append_assoc,
    mark?_append]
  simp only [Option.bind_eq_bind, Option.bind_some, hentries, hclose]
  rfl

/-! ### Lines -/

theorem hexValue?_of_mem_hexNat {n : Nat} : ∀ c ∈ Text.hexNat n, (Text.hexValue? c).isSome := by
  unfold Text.hexNat
  induction n using Nat.strongRecOn with
  | ind n ih =>
    have hdigit {d : Nat} (hd : d < 16) : ∀ c ∈ [Nat.digitChar d], (Text.hexValue? c).isSome := by
      intro c hc
      rw [List.mem_singleton.mp hc, (hexValue?_digitChar hd).1]
      rfl
    rcases Nat.lt_or_ge n 16 with hlt | hge
    · rw [Nat.toDigits_of_lt_base hlt]
      exact hdigit hlt
    · rw [Nat.toDigits_of_base_le (by decide) hge]
      exact List.forall_mem_append.mpr
        ⟨ih (n / 16) (by omega), hdigit (Nat.mod_lt _ (by decide))⟩

theorem lineFeed_not_mem_rustChar (c : Char) : '\n' ∉ rustChar c := by
  unfold rustChar
  split
  iterate 6 decide
  · rename_i _ _ hline _ _ _
    split_ifs
    · intro hmem
      simp only [List.mem_append, or_assoc] at hmem
      rcases hmem with hmem | hmem | hmem
      · exact absurd hmem (by decide)
      · exact absurd (hexValue?_of_mem_hexNat _ hmem) (by decide)
      · exact absurd hmem (by decide)
    · exact fun hmem ↦ hline (List.mem_singleton.mp hmem).symm

/-- A literal stands on one line. -/
theorem lineFeed_not_mem_rustLiteral (s : String) : '\n' ∉ rustLiteral s := by
  intro hmem
  simp only [rustLiteral, List.mem_cons, List.mem_append, List.mem_flatMap] at hmem
  rcases hmem with hmem | ⟨c, -, hmem⟩ | hmem
  · exact absurd hmem (by decide)
  · exact lineFeed_not_mem_rustChar c hmem
  · exact absurd hmem (by decide)

/-- The line of a file ends in its only line feed. -/
theorem exists_line (f : File) :
    ∃ body, (Target.rust.line f).toList = body ++ ['\n'] ∧ '\n' ∉ body := by
  refine ⟨"    (".toList ++ rustLiteral f.name ++ ", ".toList ++ rustLiteral f.data ++
    ".as_bytes()),".toList, ?_, ?_⟩
  · rw [toList_line, List.append_assoc _ ".as_bytes()),".toList]
    rfl
  · simp only [List.mem_append, not_or]
    exact ⟨⟨⟨⟨by decide, lineFeed_not_mem_rustLiteral _⟩, by decide⟩,
      lineFeed_not_mem_rustLiteral _⟩, by decide⟩

/-! ### Sources -/

/-- A Rust source is the fixed text before the table, a line for each file of the payload, and the
text that closes the table; a reader of Rust gets the payload back from it, so that two payloads
with one source are the same, and no text ends its literal early. -/
theorem source?_render (package : String) (m : Manifest) (documents : Documents) :
    (∃ text, render ⟨.rust, package⟩ m documents = .ok text ∧
      text = rustScaffolding ++ String.join ((payload m documents).map Target.rust.line) ++ "];\n" ∧
      source? text = some (payload m documents)) ∧
    (∀ f ∈ payload m documents,
      ∃ body, (Target.rust.line f).toList = body ++ ['\n'] ∧ '\n' ∉ body) ∧
    (∀ package' m' documents', render ⟨.rust, package'⟩ m' documents' =
      render ⟨.rust, package⟩ m documents → payload m' documents' = payload m documents) ∧
    ∀ s rest, literal? (rustLiteral s ++ rest) = some (s, rest) := by
  have hrender (package : String) (m : Manifest) (documents : Documents) :
      render ⟨.rust, package⟩ m documents = .ok (rustScaffolding ++
        String.join ((payload m documents).map Target.rust.line) ++ Target.rust.footer) := by
    rw [render_eq_ok rfl, join_pieces]
    rfl
  refine ⟨⟨_, hrender package m documents, rfl, source?_lines _⟩, fun f _ ↦ exists_line f, ?_,
    literal?_rustLiteral⟩
  intro package' m' documents' hsame
  rw [hrender, hrender, Except.ok.injEq] at hsame
  exact Option.some.inj (by rw [← source?_lines (payload m' documents'), hsame, source?_lines])

end ApiManifest.Embed.Rust
