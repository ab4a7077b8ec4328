import ApiManifest.Proofs.Embed.GoSource
import ApiManifest.Proofs.Json.Readable
import ApiManifest.Proofs.Path.Lexical

/-!
The characters of a Go source. Its fixed text is plain ASCII, and a string is spelled there with
every character but quotes, backslashes and controls as it is, first as JSON and then as a literal.
So a NUL never stands in a source, and a byte order mark, which Go takes only as the first character
of a source, stands in one exactly when a string of the payload has it (`characters_render`).
-/

set_option autoImplicit false
set_option relaxedAutoImplicit false

namespace ApiManifest

/-! ### Characters of JSON texts -/

namespace Json

variable {c : Char}

theorem ne_of_isPrintable (hc : ¬ IsPrintable c) (d : Char) (hd : IsPrintable d) :
    (d != c) = true := by
  rw [bne_iff_ne]
  rintro rfl
  exact hc hd

theorem mem_iff_all_bne {cs : List Char} : c ∈ cs ↔ cs.all (· != c) = false := by simp

theorem all_shown_eq_false_iff {cs : List Char} :
    (cs.all fun d ↦ d < ' ' || d != c) = false ↔ ¬ c < ' ' ∧ c ∈ cs := by
  rw [List.all_eq_false]
  constructor
  · rintro ⟨d, hd, hshown⟩
    rw [Bool.or_eq_true, not_or, decide_eq_true_eq, bne_iff_ne, not_not] at hshown
    obtain ⟨hcontrol, rfl⟩ := hshown
    exact ⟨hcontrol, hd⟩
  · rintro ⟨hcontrol, hc⟩
    exact ⟨c, hc, by simp [hcontrol]⟩

/-- A character other than the printable ones is in a string as it is, unless it is a control. -/
theorem mem_stringChars_iff (hc : ¬ IsPrintable c) (s : String) :
    c ∈ stringChars s ↔ ¬ c < ' ' ∧ c ∈ s.toList := by
  rw [mem_iff_all_bne, all_stringChars (ne_of_isPrintable hc), all_shown_eq_false_iff]

theorem mem_chars_iff (hc : ¬ IsPrintable c) (v : Json) :
    c ∈ chars v ↔ ¬ c < ' ' ∧ ∃ t ∈ texts v, c ∈ t.toList := by
  rw [mem_iff_all_bne, all_chars (ne_of_isPrintable hc), List.all_eq_false]
  simp only [Bool.not_eq_true, all_shown_eq_false_iff]
  exact ⟨fun ⟨t, ht, hcontrol, hmem⟩ ↦ ⟨hcontrol, t, ht, hmem⟩,
    fun ⟨hcontrol, t, ht, hmem⟩ ↦ ⟨t, ht, hcontrol, hmem⟩⟩

theorem mem_compact_iff (hc : ¬ IsPrintable c) (v : Json) :
    c ∈ (compact v).toList ↔ ¬ c < ' ' ∧ ∃ t ∈ texts v.sorted, c ∈ t.toList := by
  rw [compact, String.toList_ofList, mem_chars_iff hc]

end Json

namespace Embed.Go

variable {c : Char} {package : String}

/-! ### Characters of sources -/

/-- Holds of the characters of which the fixed text of a source is made. -/
def IsLayout (c : Char) : Prop := Json.IsPrintable c ∨ c = '\n' ∨ c = '\t'

instance (c : Char) : Decidable (IsLayout c) := inferInstanceAs (Decidable (_ ∨ _))

theorem isLayout_of_all {s : String} (h : s.toList.all (fun c ↦ IsLayout c) = true) :
    ∀ c ∈ s.toList, IsLayout c :=
  fun c hc ↦ of_decide_eq_true (List.all_eq_true.mp h c hc)

theorem isLayout_joinLines {lines : List String}
    (h : lines.all (fun l ↦ l.toList.all fun c ↦ IsLayout c) = true) :
    ∀ c ∈ (joinLines lines).toList, IsLayout c := by
  intro c hc
  by_cases hline : c = '\n'
  · exact .inr (.inl hline)
  · obtain ⟨l, hl, hmem⟩ := (Path.mem_toList_intercalate (by simpa using hline)).mp hc
    exact isLayout_of_all (List.all_eq_true.mp h l hl) c hmem

theorem isLayout_goPreamble : ∀ c ∈ goPreamble.toList, IsLayout c :=
  isLayout_joinLines (by decide +kernel)

theorem isLayout_goScaffolding : ∀ c ∈ goScaffolding.toList, IsLayout c :=
  isLayout_joinLines (by decide +kernel)

theorem isLayout_package (hpackage : isPackageName package = true) :
    ∀ c ∈ package.toList, IsLayout c := by
  intro c hc
  have hchar := isIdentifierChar_of_isPackageName hpackage hc
  rw [isIdentifierChar, isLetter, Bool.or_eq_true, Bool.or_eq_true, beq_iff_eq] at hchar
  rcases hchar with (halpha | rfl) | hdigit
  · exact .inl (Json.isPrintable_of_isBare (.inl (Bool.or_eq_true_iff.mpr (.inl halpha))))
  · decide
  · exact .inl (Json.isPrintable_of_isBare (.inl (Bool.or_eq_true_iff.mpr (.inr hdigit))))

/-- What is in the line of a file and not of its fixed text is in the name or the data. -/
theorem mem_line_iff (hc : ¬ IsLayout c) (f : File) :
    c ∈ (Target.go.line f).toList ↔ ¬ c < ' ' ∧ (c ∈ f.name.toList ∨ c ∈ f.data.toList) := by
  have hprintable : ¬ Json.IsPrintable c := fun h ↦ hc (.inl h)
  have hfixed (s : String) (hs : s.toList.all (fun c ↦ IsLayout c) = true) : c ∉ s.toList :=
    fun h ↦ hc (isLayout_of_all hs c h)
  have htab : c ≠ '\t' := fun h ↦ hc (.inr (.inr h))
  rw [toList_line]
  simp only [List.cons_append, List.mem_cons, List.mem_append, goLiteral, htab, false_or,
    hfixed ": ([]byte)(" (by decide), hfixed "),\n" (by decide), or_false,
    Json.mem_stringChars_iff hprintable, and_or_left]

/-- The strings that a source spells: the names of its files, and the strings in the manifest and in
the documents, keys among them. -/
def strings (m : Manifest) (documents : Documents) : List String :=
  (manifestFilename :: documents.keys) ++
    (m.toJson :: documents.map Prod.snd).flatMap fun v ↦ Json.texts v.sorted

/-- A character other than the printable ones and the controls is in a file when it is in a string
that the source spells. -/
theorem mem_payload_iff (hc : ¬ Json.IsPrintable c) (hcontrol : ¬ c < ' ') (m : Manifest)
    (documents : Documents) :
    (∃ f ∈ payload m documents, c ∈ f.name.toList ∨ c ∈ f.data.toList) ↔
      ∃ t ∈ strings m documents, c ∈ t.toList := by
  have hdata (v : Json) : c ∈ v.compact.toList ↔ ∃ t ∈ Json.texts v.sorted, c ∈ t.toList := by
    rw [Json.mem_compact_iff hc, and_iff_right hcontrol]
  calc (∃ f ∈ payload m documents, c ∈ f.name.toList ∨ c ∈ f.data.toList)
      ↔ (∃ n ∈ (payload m documents).map File.name, c ∈ n.toList) ∨
          ∃ t ∈ (payload m documents).map File.data, c ∈ t.toList := by
        simp only [List.mem_map, exists_exists_and_eq_and, and_or_left, exists_or]
    _ ↔ (∃ n ∈ manifestFilename :: documents.keys, c ∈ n.toList) ∨
          ∃ v ∈ m.toJson :: documents.map Prod.snd, ∃ t ∈ Json.texts v.sorted, c ∈ t.toList := by
        simp only [map_name_payload, map_data_payload, List.mem_map (f := Json.compact),
          exists_exists_and_eq_and, hdata]
    _ ↔ ∃ t ∈ strings m documents, c ∈ t.toList := by
        simp only [strings, List.mem_append, List.mem_flatMap, or_and_right, exists_or]
        grind

/-- What is in a source and not of its fixed text is in the name or the data of a file. -/
theorem mem_pieces_iff (hc : ¬ IsLayout c) (hpackage : isPackageName package = true)
    (m : Manifest) (documents : Documents) :
    c ∈ (String.join (pieces ⟨.go, package⟩ m documents)).toList ↔
      ¬ c < ' ' ∧ ∃ f ∈ payload m documents, c ∈ f.name.toList ∨ c ∈ f.data.toList := by
  have hpreamble : c ∉ goPreamble.toList := fun h ↦ hc (isLayout_goPreamble c h)
  have hscaffolding : c ∉ goScaffolding.toList := fun h ↦ hc (isLayout_goScaffolding c h)
  have hname : c ∉ package.toList := fun h ↦ hc (isLayout_package hpackage c h)
  have hfooter : c ∉ Target.go.footer.toList := fun h ↦ hc (isLayout_of_all (by decide) c h)
  have hheader : c ∉ (Target.go.header package).toList := by
    simp [Target.header, hpreamble, hscaffolding, hname]
  rw [join_pieces, String.toList_append, String.toList_append, List.mem_append, List.mem_append,
    String.toList_join, List.mem_flatMap, or_iff_left hfooter, or_iff_right hheader]
  constructor
  · rintro ⟨l, hl, hmem⟩
    obtain ⟨f, hf, rfl⟩ := List.mem_map.mp hl
    obtain ⟨hcontrol, hmem⟩ := (mem_line_iff hc f).mp hmem
    exact ⟨hcontrol, f, hf, hmem⟩
  · rintro ⟨hcontrol, f, hf, hmem⟩
    exact ⟨_, List.mem_map_of_mem hf, (mem_line_iff hc f).mpr ⟨hcontrol, hmem⟩⟩

/-- Whatever the payload holds, a source has no NUL; and it has a byte order mark exactly when a
string that it spells has one. -/
theorem characters_render {package : String} (hpackage : Target.go.checkPackage package = .ok ())
    (m : Manifest) (documents : Documents) :
    ∃ text, render ⟨.go, package⟩ m documents = .ok text ∧ '\x00' ∉ text.toList ∧
      ('\uFEFF' ∈ text.toList ↔ ∃ t ∈ strings m documents, '\uFEFF' ∈ t.toList) := by
  have hname := checkPackage_eq_ok_iff.mp hpackage
  refine ⟨_, render_eq_ok hpackage, fun hnul ↦ ?_, ?_⟩
  · obtain ⟨hcontrol, -⟩ := (mem_pieces_iff (by decide) hname m documents).mp hnul
    exact hcontrol (by decide)
  · rw [mem_pieces_iff (by decide) hname, and_iff_right (by decide),
      mem_payload_iff (by decide) (by decide)]

/-- A document with a NUL and a byte order mark: the first is spelled by its number, and the second
stands in the source. -/
theorem characters_render_mark :
    Target.go.checkPackage "openapi" = .ok () ∧
    ∃ text, render ⟨.go, "openapi"⟩ (.ofModules []) [("a.openapi.yaml", .str "\x00\uFEFF")] =
        .ok text ∧
      '\x00' ∉ text.toList ∧ '\uFEFF' ∈ text.toList := by
  have hpackage : Target.go.checkPackage "openapi" = .ok () := by decide
  obtain ⟨text, hrender, hnul, hmark⟩ := characters_render hpackage (.ofModules [])
    [("a.openapi.yaml", .str "\x00\uFEFF")]
  refine ⟨hpackage, text, hrender, hnul, hmark.mpr ⟨"\x00\uFEFF", ?_, by decide⟩⟩
  exact List.mem_append_right _ (List.mem_flatMap.mpr
    ⟨.str "\x00\uFEFF", List.mem_cons_of_mem _ List.mem_cons_self, List.mem_cons_self⟩)

end Embed.Go

end ApiManifest
