import ApiManifest.Proofs.Manifest.Valid

/-!
What is told of a manifest, entry by entry. Each is judged by itself and by the entries before it,
those with a bad name among them: a name that is taken is that of an entry before, whatever else is
wrong with it. A manifest of another format is told by that alone
(`Manifest.problems_eq_told_entries`).
-/

set_option autoImplicit false
set_option relaxedAutoImplicit false

namespace ApiManifest

/-- Holds of what follows the last slash of a path, or of a path without one. -/
def IsLastPart (path part : String) : Prop :=
  '/' ∉ part.toList ∧ (path = part ∨ ∃ front, path = front ++ "/" ++ part)

/-- A path has one last part, its last segment. -/
theorem isLastPart_iff {path part : String} : IsLastPart path part ↔ part = lastSegment path := by
  constructor
  · rintro ⟨hpart, rfl | ⟨front, rfl⟩⟩
    · exact (lastSegment_of_not_mem hpart).symm
    · rw [lastSegment_append_slash, lastSegment_of_not_mem hpart]
  · rintro rfl
    have hslash : ∀ c ∈ path.toList.reverse.takeWhile (· != '/'), c ≠ '/' := fun c hc ↦
      bne_iff_ne.mp (List.mem_takeWhile_imp (p := (· != '/')) hc)
    refine ⟨fun hmem ↦ ?_, ?_⟩
    · rw [lastSegment, String.toList_ofList, List.mem_reverse] at hmem
      exact hslash _ hmem rfl
    · have hsplit : path.toList = (path.toList.reverse.dropWhile (· != '/')).reverse ++
          (lastSegment path).toList := by
        rw [lastSegment, String.toList_ofList, ← List.reverse_append,
          List.takeWhile_append_dropWhile, List.reverse_reverse]
      cases hrest : path.toList.reverse.dropWhile (· != '/') with
      | nil =>
        rw [hrest, List.reverse_nil, List.nil_append] at hsplit
        exact .inl (String.ext hsplit)
      | cons c rest =>
        have hc : c = '/' := by
          have hhead := List.head?_dropWhile_not (· != '/') path.toList.reverse
          rw [hrest] at hhead
          simpa using hhead
        rw [hrest, hc] at hsplit
        refine .inr ⟨String.ofList rest.reverse, String.ext ?_⟩
        rw [hsplit]
        simp

instance (path part : String) : Decidable (IsLastPart path part) :=
  decidable_of_iff _ isLastPart_iff.symm

namespace Entry

/-- Holds of an entry whose name is empty or has a character that is none of a module name. -/
def IsMisnamed (e : Entry) : Prop := e.name = "" ∨
  ∃ c ∈ e.name.toList, ¬ ('a' ≤ c ∧ c ≤ 'z' ∨ '0' ≤ c ∧ c ≤ '9' ∨ c = '-')

/-- Holds of an entry with the name of one before it. -/
def IsRepeated (earlier : List Entry) (e : Entry) : Prop := ∃ e' ∈ earlier, e'.name = e.name

/-- Holds of an entry whose url is empty or blank. -/
def HasBlankUrl (e : Entry) : Prop := ∀ c ∈ e.url.toList, Text.isBlank c = true

/-- Holds of an entry whose path does not end in the file name of its module. -/
def IsMisplaced (e : Entry) : Prop := ¬ IsLastPart e.path (e.name ++ ".openapi.yaml")

instance (e : Entry) : Decidable e.IsMisnamed := inferInstanceAs (Decidable (_ ∨ _))

instance (earlier : List Entry) (e : Entry) : Decidable (e.IsRepeated earlier) :=
  inferInstanceAs (Decidable (∃ _ ∈ _, _))

instance (e : Entry) : Decidable e.HasBlankUrl := inferInstanceAs (Decidable (∀ _ ∈ _, _))

instance (e : Entry) : Decidable e.IsMisplaced := inferInstanceAs (Decidable (¬ _))

/-- What is to be told of an entry behind others: its bad name alone, or all that is wrong. -/
def told (earlier : List Entry) (e : Entry) : List Problem :=
  if e.IsMisnamed then [.invalidModuleName e.name]
  else (if e.IsRepeated earlier then [.duplicateModule e.name] else []) ++
    (if e.HasBlankUrl then [.emptyUrl e.name] else []) ++
    (if e.IsMisplaced then [.invalidPath e.name e.path] else [])

variable {e : Entry} {earlier : List Entry} {taken : List String}

theorem isModuleName_iff : isModuleName e.name = true ↔ ¬ e.IsMisnamed := by
  have hchar (c : Char) : isNameChar c = true ↔
      'a' ≤ c ∧ c ≤ 'z' ∨ '0' ≤ c ∧ c ≤ '9' ∨ c = '-' := by
    simp [isNameChar, or_assoc]
  rw [isModuleName, IsMisnamed, Bool.and_eq_true, Bool.not_eq_true', not_or, List.all_eq_true]
  refine and_congr (by simp) ?_
  simp only [hchar, not_exists, not_and, not_not]

theorem allBlank_iff : Text.AllBlank e.url = true ↔ e.HasBlankUrl := List.all_eq_true

theorem pathMatches_iff_not_isMisplaced : e.pathMatches = true ↔ ¬ e.IsMisplaced := by
  rw [pathMatches_iff, IsMisplaced, not_not, isLastPart_iff, eq_comm]
  rfl

/-- What is wrong with an entry is told of it when the taken names are those before it. -/
theorem problems_eq_told (hname : ¬ e.IsMisnamed)
    (htaken : e.name ∈ taken ↔ e.IsRepeated earlier) : e.problems taken = e.told earlier := by
  rw [problems, told, if_neg hname]
  refine congrArg₂ _ (congrArg₂ _ ?_ ?_) ?_
  · exact if_congr (List.contains_iff_mem.trans htaken) rfl rfl
  · exact if_congr allBlank_iff rfl rfl
  · rw [← ite_not]
    exact if_congr (by rw [pathMatches_iff_not_isMisplaced, not_not]) rfl rfl

end Entry

/-- The problems of entries are told of one after the other, when the taken names are the module
names before them. -/
theorem entryProblems_eq_told {taken : List String} (before entries : List Entry)
    (htaken : ∀ name, isModuleName name = true →
      (name ∈ taken ↔ ∃ e ∈ before, e.name = name)) :
    entryProblems taken entries =
      (entries.mapIdx fun i e ↦ e.told (before ++ entries.take i)).flatten := by
  induction entries generalizing taken before with
  | nil => rfl
  | cons e rest ih =>
    have hsplit : ((e :: rest).mapIdx fun i e' ↦ e'.told (before ++ (e :: rest).take i)).flatten =
        e.told before ++
          (rest.mapIdx fun i e' ↦ e'.told ((before ++ [e]) ++ rest.take i)).flatten := by
      simp [List.mapIdx_cons]
    have hmem (name : String) : (∃ e' ∈ before ++ [e], e'.name = name) ↔
        (∃ e' ∈ before, e'.name = name) ∨ e.name = name := by
      simp [or_and_right, exists_or]
    rw [hsplit, entryProblems]
    split_ifs with hname
    · rw [Entry.problems_eq_told (Entry.isModuleName_iff.mp hname) (htaken _ hname),
        ih (before ++ [e]) fun name hvalid ↦ ?_]
      rw [List.mem_cons, htaken name hvalid, hmem, or_comm, eq_comm]
    · rw [ih (before ++ [e]) fun name hvalid ↦ ?_, Entry.told,
        if_pos (not_not.mp (mt Entry.isModuleName_iff.mpr hname)), List.singleton_append]
      -- A bad name is not taken, and is not that of a module either.
      rw [htaken name hvalid, hmem, or_iff_left]
      rintro rfl
      exact hname hvalid

/-- What is wrong with a manifest: its version alone where that is another one, and else what is to
be told of each entry, in order. Nothing is wrong exactly where the version, all names, urls and
paths are right and no name comes twice. -/
theorem Manifest.problems_eq_told_entries (m : Manifest) :
    (m.problems = if m.version ≠ "1.0.0" then [.unsupportedVersion m.version]
      else (m.modules.mapIdx fun i e ↦ e.told (m.modules.take i)).flatten) ∧
    (m.problems = [] ↔ m.version = "1.0.0" ∧
      (∀ e ∈ m.modules, ¬ e.IsMisnamed ∧ ¬ e.HasBlankUrl ∧ ¬ e.IsMisplaced) ∧
        (m.modules.map (·.name)).Nodup) := by
  constructor
  · rw [problems, ite_not, show formatVersion = "1.0.0" from rfl]
    refine if_congr Iff.rfl ?_ rfl
    exact entryProblems_eq_told [] _ (by simp)
  · rw [problems_eq_nil_iff, show formatVersion = "1.0.0" from rfl]
    refine and_congr_right fun _ ↦ and_congr_left fun _ ↦ forall₂_congr fun e _ ↦ ?_
    rw [← Entry.isModuleName_iff, ← Entry.pathMatches_iff_not_isMisplaced, ← Entry.allBlank_iff,
      Bool.not_eq_true]
    exact ⟨fun h ↦ ⟨h.name, h.url, h.path⟩, fun h ↦ ⟨h.1, h.2.1, h.2.2⟩⟩

-- An entry with a bad name takes no name, and one that repeats a name can have more wrong with it.
example : (Manifest.ofModules [⟨"A", "", "A", "", "", ""⟩, ⟨"A", "", "A", "", "", ""⟩,
      ⟨"a", "u", "../a.openapi.yaml", "", "", ""⟩,
      ⟨"a", " ", "b.openapi.yaml", "", "", ""⟩]).problems =
    [.invalidModuleName "A", .invalidModuleName "A", .duplicateModule "a", .emptyUrl "a",
      .invalidPath "a" "b.openapi.yaml"] := by decide

end ApiManifest
