import ApiManifest.Proofs.Catalog.Opened
import ApiManifest.Proofs.Discovery.Taken
import ApiManifest.Proofs.Manifest.Compact

/-!
The files that a valid manifest lists. The path of an entry ends in a file name that stands for the
entry's own module, and a search would take it for that of a document (`Discovery.isDocument`) but
for one case: an entry of the name `index` has the manifest's own file, which no search takes, and
validation finds nothing wrong with it. So a catalog lists the manifest among its modules when it
has a module of that name, and only then (`files_of_valid`).
-/

set_option autoImplicit false
set_option relaxedAutoImplicit false

namespace ApiManifest

open Files

variable {name : String} {m : Manifest} {e : Entry}

/-- The module that the manifest's own file name stands for. -/
def manifestModule : String := "index"

theorem documentFilename_manifestModule : documentFilename manifestModule = manifestFilename := rfl

/-- The file name of a document is the manifest's own for one name only. -/
theorem isManifestFilename_documentFilename_iff :
    isManifestFilename (documentFilename name) = true ↔ name = manifestModule := by
  rw [isManifestFilename, beq_iff_eq, ← documentFilename_manifestModule]
  exact documentFilename_injective.eq_iff

/-- A search takes the file name of a document unless it is the manifest's own. -/
theorem isDocument_documentFilename_iff (hname : isModuleName name = true) :
    Discovery.isDocument (documentFilename name) = true ↔ name ≠ manifestModule := by
  rw [Discovery.isDocument, moduleOfFilename?_documentFilename hname, Option.isSome_some,
    Bool.and_true, Bool.not_eq_true', ← Bool.not_eq_true, isManifestFilename_documentFilename_iff]

/-- An entry of the name `index` is as valid as any other. -/
theorem Entry.isValid_manifestModule {url path : String} (hurl : Text.AllBlank url = false)
    (hpath : lastSegment path = manifestFilename) (version description summary : String) :
    Entry.IsValid ⟨manifestModule, url, path, version, description, summary⟩ :=
  have hname : isModuleName manifestModule = true := by decide
  ⟨hname, hurl, pathMatches_iff.mpr (hpath.trans documentFilename_manifestModule.symm)⟩

/-- A valid manifest stays valid with a valid entry of another name at its end. -/
theorem Manifest.problems_append_singleton (hm : m.problems = []) (he : e.IsValid)
    (hnew : m.find? e.name = none) : Manifest.problems ⟨m.version, m.modules ++ [e]⟩ = [] := by
  obtain ⟨hversion, hvalid, hnames⟩ := problems_eq_nil_iff.mp hm
  refine problems_eq_nil_iff.mpr ⟨hversion, ?_, ?_⟩
  · exact List.forall_mem_append.mpr ⟨hvalid, List.forall_mem_singleton.mpr he⟩
  · rw [List.map_append, List.map_singleton, List.nodup_append]
    refine ⟨hnames, List.nodup_singleton _, ?_⟩
    rintro _ hmem _ hname rfl
    obtain ⟨e', he', hsame⟩ := List.mem_map.mp hmem
    exact find?_eq_none_iff.mp hnew e' he' (hsame.trans (List.mem_singleton.mp hname))

/-- The path of an entry of a valid manifest ends in a file name that stands for the entry's module,
and a search would take it unless the module is called `index`. So a search would take all of them
exactly if no module is called that, and then the manifest stays valid with one that is, whose file
is the manifest's own. A catalog opens over valid manifests only, and lists the manifest's own file
exactly when it has a module of that name. -/
theorem files_of_valid (m : Manifest) :
    (m.problems = [] →
      (∀ e ∈ m.modules, moduleOfFilename? (lastSegment e.path) = some e.name ∧
        (Discovery.isDocument (lastSegment e.path) = true ↔ e.name ≠ manifestModule) ∧
        (isManifestFilename (lastSegment e.path) = true ↔ e.name = manifestModule)) ∧
      ((∀ e ∈ m.modules, Discovery.isDocument (lastSegment e.path) = true) ↔
        m.find? manifestModule = none) ∧
      (m.find? manifestModule = none → ∀ url path version description summary : String,
        Text.AllBlank url = false → lastSegment path = manifestFilename →
        Manifest.problems ⟨m.version,
          m.modules ++ [⟨manifestModule, url, path, version, description, summary⟩]⟩ = [])) ∧
    ∀ d s c, Catalog.ofSource d s = .ok c → c.manifest = m → m.problems = [] ∧
      ((∃ e ∈ m.modules, isManifestFilename (lastSegment e.path) = true) ↔
        (c.module? manifestModule).isSome = true) := by
  have hdocument {e : Entry} (he : e.IsValid) :
      Discovery.isDocument (lastSegment e.path) = true ↔ e.name ≠ manifestModule := by
    rw [he.lastSegment_path]
    exact isDocument_documentFilename_iff he.name
  have hmanifest {e : Entry} (he : e.IsValid) :
      isManifestFilename (lastSegment e.path) = true ↔ e.name = manifestModule := by
    rw [he.lastSegment_path]
    exact isManifestFilename_documentFilename_iff
  constructor
  · intro hm
    obtain ⟨-, hvalid, -⟩ := Manifest.problems_eq_nil_iff.mp hm
    refine ⟨fun e he ↦ ⟨?module, hdocument (hvalid e he), hmanifest (hvalid e he)⟩, ?documents,
      fun hnew url path version description summary hurl hpath ↦ ?admitted⟩
    case module =>
      rw [(hvalid e he).lastSegment_path]
      exact moduleOfFilename?_documentFilename (hvalid e he).name
    case documents =>
      rw [Manifest.find?_eq_none_iff]
      exact forall₂_congr fun e he ↦ hdocument (hvalid e he)
    case admitted =>
      exact Manifest.problems_append_singleton hm
        (Entry.isValid_manifestModule hurl hpath version description summary) hnew
  · rintro d s c hopen rfl
    obtain ⟨-, -, -, -, hm⟩ := Catalog.ofSource_eq_ok_iff.mp hopen
    obtain ⟨-, hvalid, hnames⟩ := Manifest.problems_eq_nil_iff.mp hm
    refine ⟨hm, ?_⟩
    rw [Option.isSome_iff_exists]
    constructor
    · rintro ⟨e, he, hfile⟩
      have hname := (hmanifest (hvalid e he)).mp hfile
      exact ⟨e, hname ▸ Manifest.find?_of_mem hnames he⟩
    · rintro ⟨e, hfind⟩
      obtain ⟨he, hname⟩ := Manifest.find?_eq_some hfind
      exact ⟨e, he, (hmanifest (hvalid e he)).mpr hname⟩

/-- An entry for the manifest's own file. -/
def ownEntry : Entry := ⟨manifestModule, "u", "../out/index.openapi.yaml", "", "", ""⟩

set_option maxRecDepth 4000 in
/-- A manifest that lists itself is valid, and a catalog opens on it. -/
theorem files_of_valid_own :
    ((Manifest.ofModules [ownEntry]).problems = [] ∧
      Catalog.ofSource ⟨.directory [], []⟩ (Source.ofEntry ownEntry) =
        .ok ⟨Source.ofEntry ownEntry, Manifest.ofModules [ownEntry]⟩) ∧
    (moduleOfFilename? (lastSegment ownEntry.path) = some ownEntry.name ∧
      (Discovery.isDocument (lastSegment ownEntry.path) = true ↔ ownEntry.name ≠ manifestModule) ∧
      (isManifestFilename (lastSegment ownEntry.path) = true ↔ ownEntry.name = manifestModule)) ∧
    ∃ e ∈ (Manifest.ofModules [ownEntry]).modules,
      isManifestFilename (lastSegment e.path) = true := by
  have hproblems : (Manifest.ofModules [ownEntry]).problems = [] := by decide
  have hopen : Catalog.ofSource ⟨.directory [], []⟩ (Source.ofEntry ownEntry) =
      .ok ⟨Source.ofEntry ownEntry, Manifest.ofModules [ownEntry]⟩ := by rfl
  exact ⟨⟨hproblems, hopen⟩,
    ((files_of_valid _).1 hproblems).1 ownEntry (List.mem_singleton_self _),
    ((files_of_valid _).2 _ _ _ hopen rfl).2.mpr (by decide)⟩

end ApiManifest
