import ApiManifest.Manifest.Text
import ApiManifest.Proofs.Yaml.Block

/-!
The tokens of a written manifest. Its lines are fields, each a key and a text in the style that the
text asks for; the lines of an entry are two columns to the right of its dash. The tokens come out
line by line (`Stands.fields`), entry by entry (`Stands.entries`), and for the whole
(`scan_yamlChars`).
-/

set_option autoImplicit false
set_option relaxedAutoImplicit false

namespace ApiManifest

open Yaml Scanner

/-- The tokens of a line with a key and a text. -/
def fieldTokens (f : String × String) : List Token :=
  [.key, .scalar .plain f.1, .value, .scalar (writtenMark f.2) f.2]

/-- The tokens of an entry under its dash; the mapping ends before what follows the entry. -/
def Entry.tokens (e : Entry) : List Token :=
  .blockEntry :: .blockMappingStart :: (e.fields.flatMap fieldTokens ++ [.blockEnd])

/-- The tokens of the list of modules. -/
def Manifest.moduleTokens (modules : List Entry) : List Token :=
  if modules = [] then [.flowSequenceStart, .flowSequenceEnd] else modules.flatMap Entry.tokens

/-- The tokens of a written manifest. -/
def Manifest.tokens (m : Manifest) : List Token :=
  .blockMappingStart :: (fieldTokens ("version", m.version) ++
    ([.key, .scalar .plain "modules", .value] ++ (moduleTokens m.modules ++
      [.blockEnd, .streamEnd])))

namespace Yaml.Scanner

/-! ### Lines -/

variable {s : Scanner} {p : Spot} {line k : Nat} {indents : List Int} {key value : String}
  {rest : List Char}

/-- Holds of the keys that are written as they are: words that are not too long. -/
def IsKey (key : String) : Prop :=
  IsWord key.toList ∧ key.toList ≠ [] ∧ key.toList.length ≤ 1024

instance (key : String) : Decidable (IsKey key) :=
  decidable_of_iff
    (key.toList.all Char.isLower = true ∧ key.toList ≠ [] ∧ key.toList.length ≤ 1024)
    ⟨fun h ↦ ⟨List.all_eq_true.mp h.1, h.2⟩, fun h ↦ ⟨List.all_eq_true.mpr h.1, h.2⟩⟩

theorem resumes_word {cs : List Char} (hword : IsWord cs) (hne : cs ≠ []) (rest : List Char) :
    Resumes (cs ++ rest) := by
  obtain ⟨c, more, rfl⟩ := List.exists_cons_of_ne_nil hne
  intro d hd
  rw [List.cons_append, List.head?_cons, Option.mem_some_iff] at hd
  exact hd ▸ (letter_starts (hword c List.mem_cons_self)).1

/-- A line is a key, a colon, a space, and a scalar with the end of the line. -/
theorem fieldChars_append (key : String) (indent : Nat) (value : String) (rest : List Char) :
    fieldChars key indent value ++ rest =
      key.toList ++ ':' :: ' ' :: (scalarChars indent value ++
        ((if writtenStyle value == .literal && endsBroken false value.toList then [] else ['\n']) ++
          rest)) := by
  simp [fieldChars, endsBroken]

/-- After its colon and a space the value of a field is ahead. -/
theorem ahead_value (hkey : IsKey key) (width : Nat) (value : String) (rest : List Char)
    (p : Spot) :
    dropGap false false false
        (place ((p.past key.toList).after ':') (' ' :: (scalarChars width value ++ rest))) =
      (place ⟨p.line, p.column + key.toList.length + 2⟩ (scalarChars width value ++ rest),
        false) := by
  have hspaces := dropGap_spaces (k := 1) (p := (p.past key.toList).after ':')
    (resumes_scalarChars width value rest) false
  rw [past_word hkey.1] at hspaces ⊢
  exact hspaces

/-- A line of a mapping is a field of it. -/
theorem Stands.field
    (hs : Stands s p.column indents true p
      (fieldChars key (p.column + 2) value ++ (spaces k ++ rest)))
    (hkey : IsKey key) (hk : k ≤ p.column) (hrest : Resumes rest) :
    ∃ s' line, Steps s s' ∧ Stands s' p.column indents true ⟨line, k⟩ rest ∧
      s'.tokens = (fieldTokens (key, value)).reverse ++ s.tokens := by
  rw [fieldChars_append] at hs
  obtain ⟨t, hfirst, ht, htokens⟩ := hs.key hkey.1 hkey.2.1 hkey.2.2 rfl (ahead_value hkey _ _ _ p)
  obtain ⟨s', line, hlast, hs', htokens'⟩ := ht.scalar (by simp only; omega) hk hrest
  refine ⟨s', line, hfirst.trans hlast, hs', ?_⟩
  rw [htokens', htokens, String.ofList_toList, String.ofList_toList]
  rfl

/-- The first line of a mapping opens it. -/
theorem Stands.firstField {indent : Int}
    (hs : Stands s indent indents true p
      (fieldChars key (p.column + 2) value ++ (spaces k ++ rest)))
    (hindent : indent < p.column) (hkey : IsKey key) (hk : k ≤ p.column) (hrest : Resumes rest) :
    ∃ s' line, Steps s s' ∧ Stands s' p.column (indent :: indents) true ⟨line, k⟩ rest ∧
      s'.tokens = (.blockMappingStart :: fieldTokens (key, value)).reverse ++ s.tokens := by
  rw [fieldChars_append] at hs
  obtain ⟨t, hfirst, ht, htokens⟩ :=
    hs.firstKey hkey.1 hkey.2.1 hkey.2.2 rfl hindent (ahead_value hkey _ _ _ p)
  obtain ⟨s', line, hlast, hs', htokens'⟩ := ht.scalar (by simp only; omega) hk hrest
  refine ⟨s', line, hfirst.trans hlast, hs', ?_⟩
  rw [htokens', htokens, String.ofList_toList, String.ofList_toList]
  rfl

/-- The lines of a mapping after its first one, and what the scanner reads on when it has passed the
end of the line before them. -/
theorem ends_lines {column : Nat} {ts : List Token} (fs : List (String × String))
    (hkeys : ∀ f ∈ fs, IsKey f.1) (hrest : Resumes rest)
    (hends : ∀ s line, Stands s column indents true ⟨line, 0⟩ rest → Ends s ts) :
    ∃ k r, (fs.flatMap fun f ↦ spaces column ++ fieldChars f.1 (column + 2) f.2) ++ rest =
        spaces k ++ r ∧ k ≤ column ∧ Resumes r ∧
      ∀ s line, Stands s column indents true ⟨line, k⟩ r →
        Ends s (fs.flatMap fieldTokens ++ ts) := by
  induction fs with
  | nil => exact ⟨0, rest, rfl, Nat.zero_le _, hrest, hends⟩
  | cons f fs ih =>
    obtain ⟨k, r, htext, hk, hr, hread⟩ := ih fun g hg ↦ hkeys g (List.mem_cons_of_mem f hg)
    have hkey := hkeys f List.mem_cons_self
    refine ⟨column, fieldChars f.1 (column + 2) f.2 ++ (spaces k ++ r), ?_, le_rfl, ?_, ?_⟩
    · rw [List.flatMap_cons, List.append_assoc, htext, List.append_assoc]
    · rw [fieldChars_append]
      exact resumes_word hkey.1 hkey.2.1 _
    · intro s line hs
      obtain ⟨s', line', hsteps, hs', htokens⟩ := hs.field (p := ⟨line, column⟩) hkey hk hr
      rw [List.flatMap_cons, List.append_assoc]
      exact .of_steps _ hsteps htokens (hread s' line' hs')

end Yaml.Scanner

/-! ### Entries -/

namespace Manifest

variable {s : Scanner} {line : Nat} {rest : List Char}

theorem isKey_fields (e : Entry) : ∀ f ∈ e.fields, IsKey f.1 := by
  have hkeys : ∀ k ∈ e.fields.map Prod.fst, IsKey k := by
    show ∀ k ∈ ["name", "url", "path", "version", "description", "summary"], IsKey k
    decide
  exact fun f hf ↦ hkeys f.1 (List.mem_map_of_mem hf)

theorem entryChars_append (e : Entry) (rest : List Char) :
    entryChars e ++ rest = '-' :: ' ' :: (fieldChars "name" 4 e.name ++
      ((e.fields.tail.flatMap fun f ↦ spaces 2 ++ fieldChars f.1 4 f.2) ++ rest)) := by
  simp [entryChars, Entry.fields, spaces]

theorem resumes_entries (es : List Entry) : Resumes (es.flatMap entryChars) := by
  cases es with
  | nil => exact fun c hc ↦ absurd hc (by simp)
  | cons e es =>
    rw [List.flatMap_cons, entryChars_append]
    intro c hc
    rw [List.head?_cons, Option.mem_some_iff] at hc
    subst hc
    exact ⟨rfl, rfl, by decide, by decide⟩

/-- After its dash an entry is a mapping of its fields. -/
theorem ends_entry {ts : List Token} (e : Entry) (hrest : Resumes rest)
    (hends : ∀ s line, Stands s 2 [0, -1] true ⟨line, 0⟩ rest → Ends s ts)
    (hs : Stands s 0 [-1] true ⟨line, 2⟩ (fieldChars "name" 4 e.name ++
      ((e.fields.tail.flatMap fun f ↦ spaces 2 ++ fieldChars f.1 4 f.2) ++ rest))) :
    Ends s (.blockMappingStart :: (e.fields.flatMap fieldTokens ++ ts)) := by
  obtain ⟨k, r, htext, hk, hr, hread⟩ := ends_lines e.fields.tail
    (fun f hf ↦ isKey_fields e f (List.mem_of_mem_tail hf)) hrest hends
  rw [htext] at hs
  obtain ⟨s', line', hsteps, hs', htokens⟩ := hs.firstField (p := ⟨line, 2⟩)
    (show (0 : Int) < 2 by decide)
    (isKey_fields e ("name", e.name) List.mem_cons_self) hk hr
  exact .of_steps _ hsteps htokens (hread s' line' hs')

/-- The entries after the first one, which has ended but for its mapping. -/
theorem ends_entries (es : List Entry)
    (hs : Stands s 2 [0, -1] true ⟨line, 0⟩ (es.flatMap entryChars)) :
    Ends s (.blockEnd :: (es.flatMap Entry.tokens ++ [.blockEnd, .streamEnd])) := by
  induction es generalizing s line with
  | nil => exact hs.endsItem
  | cons e es ih =>
    have hname := (isKey_fields e ("name", e.name) List.mem_cons_self)
    rw [List.flatMap_cons, entryChars_append] at hs
    obtain ⟨s', hsteps, hs', htokens⟩ := hs.nextDash (by
      rw [fieldChars_append]
      exact resumes_word hname.1 hname.2.1 _)
    have hrest := ends_entry e (resumes_entries es) (fun s line hs ↦ ih hs) hs'
    have hwhole := Ends.of_steps [.blockEnd, .blockEntry] hsteps htokens hrest
    simpa [Entry.tokens] using hwhole

/-- The list of modules and the end of the text. -/
theorem ends_modules {modules : List Entry} (hs : Stands s 0 [-1] true ⟨line, 0⟩
      (if modules.isEmpty then "modules: []\n".toList
        else "modules:\n".toList ++ modules.flatMap entryChars)) :
    Ends s ([.key, .scalar .plain "modules", .value] ++ (moduleTokens modules ++
      [.blockEnd, .streamEnd])) := by
  have hword : IsKey "modules" := by decide
  cases modules with
  | nil =>
    have hresumes : Resumes ['[', ']', '\n'] := by
      intro c hc
      rw [List.head?_cons, Option.mem_some_iff] at hc
      subst hc
      exact ⟨rfl, rfl, by decide, by decide⟩
    have hspace := dropGap_spaces (k := 1)
      (p := ((⟨line, 0⟩ : Spot).past "modules".toList).after ':')
      hresumes false
    obtain ⟨t, hfirst, ht, htokens⟩ :=
      Stands.key (p := ⟨line, 0⟩) hs hword.1 hword.2.1 hword.2.2 rfl
      hspace
    obtain ⟨s', line', hlast, hs', htokens'⟩ := ht.emptySequence 0 [] (Nat.zero_le _)
      (fun c hc ↦ absurd hc (by simp))
    exact .of_steps _ hfirst htokens (.of_steps _ hlast htokens' hs'.endsMapping)
  | cons e es =>
    have hname := (isKey_fields e ("name", e.name) List.mem_cons_self)
    have hline := dropGap_line (k := 0) (p := ((⟨line, 0⟩ : Spot).past "modules".toList).after ':')
      (resumes_entries (e :: es)) false
    obtain ⟨t, hfirst, ht, htokens⟩ :=
      Stands.key (p := ⟨line, 0⟩) hs hword.1 hword.2.1 hword.2.2 rfl
      hline
    rw [List.flatMap_cons, entryChars_append] at ht
    obtain ⟨s', hlast, hs', htokens'⟩ := ht.firstDash (by
      rw [fieldChars_append]
      exact resumes_word hname.1 hname.2.1 _)
    have hrest := ends_entry e (resumes_entries es) (fun s line hs ↦ ends_entries es hs) hs'
    have hwhole := Ends.of_steps [.blockEntry] hlast htokens' hrest
    have hmodules := Ends.of_steps [.key, .scalar .plain "modules", .value] hfirst htokens hwhole
    simpa [moduleTokens, Entry.tokens] using hmodules

/-- A written manifest has the tokens that `Manifest.tokens` gives. -/
theorem scan_yamlChars (m : Manifest) : scan (place .start m.yamlChars) = .ok m.tokens := by
  have hversion : IsKey "version" := by decide
  have hstart (rest : List Char) : Resumes (fieldChars "version" 2 m.version ++ rest) := by
    rw [fieldChars_append]
    exact resumes_word hversion.1 hversion.2.1 _
  have hs : Stands (start (place .start m.yamlChars)) (-1) [] true ⟨0, 0⟩ m.yamlChars :=
    ⟨rfl, rfl, rfl, rfl, rfl, dropGap_of_resumes (hstart _) false true _⟩
  have hmodules : Resumes (if m.modules.isEmpty then "modules: []\n".toList
      else "modules:\n".toList ++ m.modules.flatMap entryChars) := by
    intro c hc
    obtain rfl : 'm' = c := by
      split_ifs at hc
      · exact Option.some.inj hc
      · exact Option.some.inj hc
    exact ⟨rfl, rfl, by decide, by decide⟩
  obtain ⟨s', line, hsteps, hs', htokens⟩ := hs.firstField (p := ⟨0, 0⟩) (k := 0)
    (show (-1 : Int) < 0 by decide) hversion le_rfl hmodules
  exact scan_of_ends (.of_steps _ hsteps htokens (ends_modules hs'))

end Manifest

end ApiManifest
