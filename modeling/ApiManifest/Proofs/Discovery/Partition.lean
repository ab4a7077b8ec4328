import ApiManifest.Proofs.Discovery.Again
import ApiManifest.Proofs.Manifest.Valid
import ApiManifest.Proofs.Text.Octets
import Mathlib.Data.List.Perm.Basic

/-!
What becomes of the names of a directory. Each is the manifest's, is told as ignored, or is the key
of a document, and none is lost or counted twice; names that are no text come out as they are shown.
Ignored names and documents are in the order of their octets, and the modules are in the order of
the documents, each made from the document in its place (`isPartition_of_discover`).
-/

set_option autoImplicit false
set_option relaxedAutoImplicit false

namespace ApiManifest

open Files

namespace Discovery

variable {d : Disk} {s : Search} {names : List String} {raw : List Name}
  {taken : List (Json × Entry)} {b : Builder} {found : Discovery}

/-- Holds of an entry and a stored document that are made from the file of one module. -/
structure IsModuleOf (d : Disk) (s : Search) (e : Entry) (f : String × Json) : Prop where
  filename : f.1 = documentFilename e.name
  loaded : loadDocument d (Path.join s.source f.1) = .ok f.2
  entry : ∃ header, Header.ofDocument s.extension f.2 = .ok header ∧
    e = .ofHeader e.name (d.relative (Path.join s.source f.1) s.output) header

/-- The names in a directory, as they are shown, that are that of the manifest's own file. -/
def manifestNames (raw : List Name) : List String :=
  (raw.map Text.textLossy).filter isManifestFilename

/-- Holds of what a search finds in a directory with the given names when every name is accounted
for once and the modules are in step with the documents. -/
structure IsPartition (d : Disk) (s : Search) (raw : List Name) (found : Discovery) : Prop where
  names : (raw.map Text.textLossy).Perm
    (manifestNames raw ++ found.ignored ++ found.documents.keys)
  manifest : raw.Nodup → manifestNames raw =
    if Text.octets manifestFilename ∈ raw then [manifestFilename] else []
  manifest_not_ignored : manifestFilename ∉ found.ignored
  manifest_not_document : manifestFilename ∉ found.documents.keys
  disjoint : found.ignored.Disjoint found.documents.keys
  ignored : found.ignored.Pairwise fun n n' ↦ Text.octets n ≤ Text.octets n'
  documents : found.documents.keys.Pairwise fun n n' ↦ Text.octets n < Text.octets n'
  listed : ∀ n ∈ found.documents.keys, Text.octets n ∈ raw
  modules : List.Forall₂ (IsModuleOf d s) found.manifest.modules found.documents

/-! ### Documents in order -/

/-- What is stored of a document that has been taken. -/
def stored (t : Json × Entry) : String × Json := (documentFilename t.2.name, t.1)

/-- Documents that are pushed in order are stored in that order. -/
theorem documents_of_pushes (h : taken.foldlM push .empty = .ok b)
    (hsorted : (taken.map stored).Pairwise fun f f' ↦ f.1 ≤ f'.1) :
    b.documents = taken.map stored := by
  have hholds := holds_of_pushes h
  have hdocuments := hholds.documents
  have hdifferent := hholds.nodup_filenames
  rw [List.map_map] at hdocuments hdifferent
  refine hdocuments.trans (Dictionary.ofList_of_ascending ?_)
  -- No file name comes twice, so each of them comes strictly before the next.
  have hpairs : (taken.map stored).Pairwise fun f f' ↦ f.1 ≠ f'.1 :=
    List.pairwise_map.mpr (List.pairwise_map.mp hdifferent)
  exact (hsorted.and hpairs).imp fun ⟨hle, hne⟩ ↦
    String.not_le.mp fun hge ↦ hne (String.le_antisymm hle hge)

/-! ### Names -/

/-- Every name is the manifest's, that of a document, or ignored. -/
theorem filter_append_perm (names : List String) :
    (names.filter isManifestFilename ++ names.filter isIgnored ++ names.filter isDocument).Perm
      names := by
  have hsplit := List.filter_append_perm (fun n ↦ (moduleOfFilename? n).isNone)
    (names.filter fun n ↦ !isManifestFilename n)
  rw [List.filter_filter, List.filter_filter] at hsplit
  rw [List.append_assoc]
  refine List.Perm.trans (List.Perm.append_left _ ?_)
    (List.filter_append_perm isManifestFilename names)
  refine List.Perm.trans (List.Perm.of_eq (congrArg₂ _ ?_ ?_)) hsplit
  · exact List.filter_congr fun n _ ↦ Bool.and_comm _ _
  · refine List.filter_congr fun n _ ↦ ?_
    rw [isDocument, Option.not_isNone, Bool.and_comm]

/-- Only the name of the manifest's file is shown like it. -/
theorem isManifestFilename_textLossy_iff {n : Name} :
    isManifestFilename (Text.textLossy n) = true ↔ n = Text.octets manifestFilename := by
  rw [isManifestFilename, beq_iff_eq]
  constructor
  · intro h
    rw [← h, Text.octets_textLossy]
    rw [h]
    decide
  · rintro rfl
    exact Text.textLossy_octets _

/-- The file name of a document is that of a module. -/
theorem exists_name_of_isDocument {filename : String} (h : isDocument filename = true) :
    ∃ name, filename = documentFilename name ∧ isModuleName name = true := by
  rw [isDocument, Bool.and_eq_true, Option.isSome_iff_exists] at h
  obtain ⟨-, name, hname⟩ := h
  exact ⟨name, moduleOfFilename?_eq_some_iff.mp hname⟩

/-- The characters in the file name of a document. -/
theorem mem_of_isDocument {filename : String} (h : isDocument filename = true) {c : Char}
    (hc : c ∈ filename.toList) : isNameChar c = true ∨ c ∈ moduleSuffix.toList := by
  obtain ⟨name, rfl, hvalid⟩ := exists_name_of_isDocument h
  rw [documentFilename, String.toList_append, List.mem_append] at hc
  exact hc.imp_left (isNameChar_of_mem hvalid)

/-- The file name of a document is text. -/
theorem not_mem_of_isDocument {filename : String} (h : isDocument filename = true) :
    '\uFFFD' ∉ filename.toList := fun hmem ↦ absurd (mem_of_isDocument h hmem) (by decide)

theorem manifestNames_of_nodup (hraw : raw.Nodup) : manifestNames raw =
    if Text.octets manifestFilename ∈ raw then [manifestFilename] else [] := by
  have hfilter : raw.filter (isManifestFilename ∘ Text.textLossy) =
      raw.filter (· == Text.octets manifestFilename) := by
    refine List.filter_congr fun n _ ↦ Bool.eq_iff_iff.mpr ?_
    rw [Function.comp_apply, isManifestFilename_textLossy_iff, beq_iff_eq]
  rw [manifestNames, List.filter_map, hfilter, List.filter_beq, hraw.count]
  split_ifs with hmem
  · exact congrArg (fun n ↦ [n]) (Text.textLossy_octets manifestFilename)
  · rfl

/-- The documents of names in order are stored under these names, in the order in which they are
taken. -/
theorem stored_of_takes (htakes : Takes d s names taken)
    (hpushes : taken.foldlM push .empty = .ok b) (hnames : names.Pairwise fun n n' ↦ n ≤ n') :
    b.documents = taken.map stored ∧ b.documents.keys = names.filter isDocument := by
  have hkeys : (taken.map stored).map Prod.fst = names.filter isDocument := by
    rw [htakes.filenames, List.map_map]
    rfl
  have hdocuments : b.documents = taken.map stored := by
    refine documents_of_pushes hpushes (List.pairwise_map.mp ?_)
    rw [hkeys]
    exact hnames.filter _
  rw [hdocuments]
  exact ⟨rfl, hkeys⟩

theorem forall₂_isModuleOf (htakes : Takes d s names taken) :
    List.Forall₂ (IsModuleOf d s) (taken.map Prod.snd) (taken.map stored) := by
  rw [List.forall₂_map_left_iff, List.forall₂_map_right_iff, List.forall₂_same]
  intro t ht
  obtain ⟨hloaded, hentry⟩ := moduleAt_eq_ok_iff.mp (htakes.modules t ht)
  exact ⟨rfl, hloaded, hentry⟩

end Discovery

/-- A search accounts for every name of its source directory once, and its modules are in step with
its documents. -/
theorem isPartition_of_discover {d : Disk} {s : Search} {found : Discovery}
    (h : discover d s = .ok found) :
    ∃ raw, d.list s.source = .ok raw ∧ Discovery.IsPartition d s raw found := by
  obtain ⟨names, taken, b, hnames, htakes, hpushes, rfl⟩ := discover_eq_ok_iff.mp h
  obtain ⟨raw, hraw, rfl⟩ : ∃ raw, d.list s.source = .ok raw ∧
      Discovery.sorted (raw.map Text.textLossy) = names := by
    rw [Discovery.listNames] at hnames
    cases hlist : d.list s.source with
    | error cause => exact absurd hnames (by simp [hlist, Except.map])
    | ok raw =>
      rw [hlist] at hnames
      exact ⟨raw, rfl, Except.ok.inj hnames⟩
  have hsorted := Discovery.pairwise_sorted (raw.map Text.textLossy)
  have hperm : (Discovery.sorted (raw.map Text.textLossy)).Perm (raw.map Text.textLossy) :=
    List.mergeSort_perm _ _
  obtain ⟨hdocuments, hkeys⟩ := Discovery.stored_of_takes htakes hpushes hsorted
  have hmodules := Discovery.forall₂_isModuleOf htakes
  rw [← Discovery.modules_of_pushes hpushes, ← hdocuments] at hmodules
  refine ⟨raw, hraw, ?_⟩
  constructor
  case names =>
    dsimp only [Builder.build]
    rw [hkeys, Discovery.manifestNames]
    refine hperm.symm.trans ((Discovery.filter_append_perm _).symm.trans ?_)
    exact ((hperm.filter _).append_right _).append_right _
  case manifest => exact Discovery.manifestNames_of_nodup
  case manifest_not_ignored =>
    intro hmem
    exact absurd (List.mem_filter.mp hmem).2 (by decide)
  case manifest_not_document =>
    dsimp only [Builder.build]
    rw [hkeys]
    intro hmem
    exact absurd (List.mem_filter.mp hmem).2 (by decide)
  case disjoint =>
    dsimp only [Builder.build]
    rw [hkeys]
    intro n hignored hdocument
    have hnone := (List.mem_filter.mp hignored).2
    have hsome := (List.mem_filter.mp hdocument).2
    rw [Discovery.isIgnored, Bool.and_eq_true] at hnone
    rw [Discovery.isDocument, Bool.and_eq_true, ← Option.not_isNone, hnone.2] at hsome
    exact absurd hsome.2 (by decide)
  case ignored => exact (hsorted.filter _).imp Text.octets_le_iff.mpr
  case documents =>
    have hascending := (Discovery.holds_of_pushes hpushes).ascending
    exact List.pairwise_map.mpr (hascending.imp Text.octets_lt_iff.mpr)
  case listed =>
    dsimp only [Builder.build]
    rw [hkeys]
    intro n hn
    obtain ⟨hmem, hdocument⟩ := List.mem_filter.mp hn
    obtain ⟨name, hname, rfl⟩ := List.mem_map.mp (hperm.subset hmem)
    rw [Text.octets_textLossy (Discovery.not_mem_of_isDocument hdocument)]
    exact hname
  case modules => exact hmodules

/-- A directory with two documents, the manifest and two other files, one under a name that is no
text. -/
def mixedDirectory : Disk :=
  ⟨.directory [([0xFF], .file []), (Text.octets "index.openapi.yaml", .file []),
    (Text.octets "a.openapi.yaml", .file (Text.octets "$id: u\ninfo: \x7b\x7d\n")),
    (Text.octets "a-b.openapi.yaml", .file (Text.octets "$id: v\ninfo: \x7b\x7d\n")),
    (Text.octets "README", .file [])], []⟩

/-- What is found there. -/
def mixedDiscovery : Discovery :=
  ⟨.ofModules [⟨"a-b", "v", "a-b.openapi.yaml", "", "", ""⟩,
      ⟨"a", "u", "a.openapi.yaml", "", "", ""⟩],
    [("a-b.openapi.yaml", .obj [("$id", .str "v"), ("info", .obj [])]),
      ("a.openapi.yaml", .obj [("$id", .str "u"), ("info", .obj [])])], ["README", "\uFFFD"]⟩

set_option maxRecDepth 4000 in
/-- The name with the hyphen comes first, and the one that is no text is ignored as it is shown. -/
theorem isPartition_of_discover_mixed :
    discover mixedDirectory ⟨".", ".", "x"⟩ = .ok mixedDiscovery ∧
      ∃ raw, mixedDirectory.list "." = .ok raw ∧
        Discovery.IsPartition mixedDirectory ⟨".", ".", "x"⟩ raw mixedDiscovery := by
  have hsorted : Discovery.sorted ["\uFFFD", "index.openapi.yaml", "a.openapi.yaml",
      "a-b.openapi.yaml", "README"] = ["README", "a-b.openapi.yaml", "a.openapi.yaml",
        "index.openapi.yaml", "\uFFFD"] := by
    refine ((List.mergeSort_perm _ _).trans (by decide)).eq_of_pairwise
      (fun _ _ _ _ hab hba ↦ String.le_antisymm hab hba) (Discovery.pairwise_sorted _) ?_
    decide
  have hnames : Discovery.listNames mixedDirectory "." = .ok ["README", "a-b.openapi.yaml",
      "a.openapi.yaml", "index.openapi.yaml", "\uFFFD"] := by
    rw [Discovery.listNames, show mixedDirectory.list "." = .ok [[0xFF],
      Text.octets "index.openapi.yaml", Text.octets "a.openapi.yaml",
      Text.octets "a-b.openapi.yaml", Text.octets "README"] from rfl]
    exact congrArg Except.ok hsorted
  have h : discover mixedDirectory ⟨".", ".", "x"⟩ = .ok mixedDiscovery := by
    rw [discover, hnames]
    rfl
  exact ⟨h, isPartition_of_discover h⟩

end ApiManifest
