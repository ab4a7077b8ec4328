import ApiManifest.Proofs.Discovery.Taken
import ApiManifest.Proofs.Files.Lexical
import ApiManifest.Proofs.Manifest.Valid

/-!
What a search finds is valid. Its entries have module names, no two the same, and URLs that are not
blank; the path of an entry ends in the file name of its module unless the directory of the manifest
stands, by the texts of the paths alone, at the document or below it (`problems_of_discover`).
-/

set_option autoImplicit false
set_option relaxedAutoImplicit false

namespace ApiManifest

open Files

/-- The way to a file ends in its name, but for a directory at the file or below it. -/
theorem lastSegment_relative_iff {d : Disk} {source output s : String} (hs : Path.IsName s) :
    lastSegment (d.relative (Path.join source s) output) = s ↔
      ¬ d.IsWithin output (Path.join source s) := by
  constructor
  · intro hlast hwithin
    rcases Disk.relative_of_isWithin hwithin with hrelative | ⟨n, hrelative⟩
    · rw [hrelative] at hlast
      exact hs.notHere (hlast.symm.trans (lastSegment_of_not_mem (by decide)))
    · rw [hrelative, lastSegment_intercalate] at hlast
      exact hs.notUp (hlast.symm.trans (lastSegment_of_not_mem (by decide)))
  · intro hwithin
    obtain ⟨shared, up, down, htarget, hbase, hrelative⟩ := Path.exists_between Text.textLossy
      (d.lexical (Path.join source s)).reverse (d.lexical output).reverse
    have hne : down ≠ [] := by
      rintro rfl
      refine hwithin (List.reverse_prefix.mp ⟨up, ?_⟩)
      rw [htarget, hbase, List.append_nil]
    obtain ⟨init, last, rfl⟩ := (List.eq_nil_or_concat' down).resolve_left hne
    rw [Disk.lexical_join_of_isName hs, List.reverse_cons, ← List.append_assoc] at htarget
    obtain rfl : Text.octets s = last := List.singleton_inj.mp (List.append_inj' htarget rfl).2
    rw [Disk.relative, hrelative hne, List.map_append, List.map_singleton, Text.textLossy_octets,
      ← List.append_assoc, lastSegment_intercalate, lastSegment_of_not_mem hs.noSlash]

namespace Discovery

variable {d : Disk} {s : Search}

/-- No two modules that a search finds have the same name. -/
theorem nodup_of_discover {found : Discovery} (h : discover d s = .ok found) :
    (found.manifest.modules.map (·.name)).Nodup := by
  obtain ⟨names, taken, b, -, -, hpushes, rfl⟩ := discover_eq_ok_iff.mp h
  have hnodup := (holds_of_pushes hpushes).nodup_names
  rw [List.map_map] at hnodup
  rw [modules_of_pushes hpushes, List.map_map]
  exact hnodup

end Discovery

/-- The `$id` of a header is not blank. -/
theorem Header.not_allBlank_of_ofDocument {extension : String} {v : Json} {header : Header}
    (h : ofDocument extension v = .ok header) : Text.AllBlank header.id = false := by
  unfold ofDocument at h
  split at h
  · exact nomatch h
  · split_ifs at h with hblank
    split at h
    · rw [← Except.ok.inj h]
      exact eq_false_of_ne_true hblank
    · exact nomatch h

theorem not_allBlank_of_discover {d : Disk} {s : Search} {found : Discovery}
    (h : discover d s = .ok found) {e : Entry} (he : e ∈ found.manifest.modules) :
    Text.AllBlank e.url = false := by
  obtain ⟨v, hmodule, -⟩ := exists_moduleAt_of_discover h he
  obtain ⟨-, header, hheader, hentry⟩ := Discovery.moduleAt_eq_ok_iff.mp hmodule
  have hurl : e.url = header.id := congrArg Entry.url hentry
  rw [hurl]
  exact Header.not_allBlank_of_ofDocument hheader

/-- An entry that a search finds is valid but for a directory of the manifest at its document or
below it. -/
theorem isValid_iff_of_discover {d : Disk} {s : Search} {found : Discovery}
    (h : discover d s = .ok found) {e : Entry} (he : e ∈ found.manifest.modules) :
    e.IsValid ↔
      ¬ d.IsWithin s.output (Path.join s.source (documentFilename e.name)) := by
  have hname : isModuleName e.name = true :=
    ((discover_isWellFound h).entries e (List.mem_reverse.mpr he)).1
  obtain ⟨hpath, -⟩ := path_of_discover h he
  rw [← lastSegment_relative_iff (isName_documentFilename hname), ← hpath, ← Entry.pathMatches_iff]
  exact ⟨fun hvalid ↦ hvalid.path, fun hmatches ↦ ⟨hname, not_allBlank_of_discover h he, hmatches⟩⟩

/-- Nothing is wrong with what a search finds, unless the directory of the manifest stands at a
document or below it; it never does when it is the source directory. -/
theorem problems_of_discover {d : Disk} {s : Search} {found : Discovery}
    (h : discover d s = .ok found) :
    (found.manifest.problems = [] ↔ ∀ e ∈ found.manifest.modules,
      ¬ d.IsWithin s.output (Path.join s.source (documentFilename e.name))) ∧
    (d.lexical s.output = d.lexical s.source → found.manifest.problems = []) := by
  have hversion : found.manifest.version = formatVersion := by
    obtain ⟨names, taken, b, -, -, -, rfl⟩ := discover_eq_ok_iff.mp h
    rfl
  have hiff : found.manifest.problems = [] ↔ ∀ e ∈ found.manifest.modules,
      ¬ d.IsWithin s.output (Path.join s.source (documentFilename e.name)) := by
    rw [Manifest.problems_eq_nil_iff, and_iff_right hversion,
      and_iff_left (Discovery.nodup_of_discover h)]
    exact forall₂_congr fun e he ↦ isValid_iff_of_discover h he
  refine ⟨hiff, fun hsame ↦ hiff.mpr fun e he ↦ ?_⟩
  have hname := ((discover_isWellFound h).entries e (List.mem_reverse.mpr he)).1
  exact Disk.not_isWithin_join (isName_documentFilename hname) hsame

/-- A directory with one document. -/
def oneDocument : Disk :=
  ⟨.directory [(Text.octets "a.openapi.yaml", .file (Text.octets "$id: u\ninfo: \x7b\x7d\n"))], []⟩

/-- What is found there if the path of the document is the given one. -/
def oneDiscovery (path : String) : Discovery :=
  ⟨.ofModules [⟨"a", "u", path, "", "", ""⟩],
    [("a.openapi.yaml", .obj [("$id", .str "u"), ("info", .obj [])])], []⟩

theorem listNames_oneDocument : Discovery.listNames oneDocument "." = .ok ["a.openapi.yaml"] :=
  Discovery.listNames_of_list rfl

set_option maxRecDepth 4000 in
theorem discover_beside :
    discover oneDocument ⟨".", "out", "x"⟩ = .ok (oneDiscovery "../a.openapi.yaml") := by
  rw [discover, listNames_oneDocument]
  rfl

set_option maxRecDepth 4000 in
theorem discover_below :
    discover oneDocument ⟨".", "a.openapi.yaml/out", "x"⟩ = .ok (oneDiscovery "..") := by
  rw [discover, listNames_oneDocument]
  rfl

set_option maxRecDepth 4000 in
/-- The manifest is valid in another directory and in the same one, and is not below the document.
-/
theorem problems_of_discover_one :
    (discover oneDocument ⟨".", "out", "x"⟩ = .ok (oneDiscovery "../a.openapi.yaml") ∧
      (oneDiscovery "../a.openapi.yaml").manifest.problems = []) ∧
    (discover oneDocument ⟨".", "out/..", "x"⟩ = .ok (oneDiscovery "a.openapi.yaml") ∧
      (oneDiscovery "a.openapi.yaml").manifest.problems = []) ∧
    discover oneDocument ⟨".", "a.openapi.yaml/out", "x"⟩ = .ok (oneDiscovery "..") ∧
      (oneDiscovery "..").manifest.problems ≠ [] := by
  have hsame : discover oneDocument ⟨".", "out/..", "x"⟩ =
      .ok (oneDiscovery "a.openapi.yaml") := by
    rw [discover, listNames_oneDocument]
    rfl
  refine ⟨⟨discover_beside, (problems_of_discover discover_beside).1.mpr ?_⟩,
    ⟨hsame, (problems_of_discover hsame).2 rfl⟩, discover_below, fun hnone ↦ ?_⟩
  · exact List.forall_mem_singleton.mpr (by decide)
  · exact (problems_of_discover discover_below).1.mp hnone _ (List.mem_singleton_self _) (by decide)

end ApiManifest
